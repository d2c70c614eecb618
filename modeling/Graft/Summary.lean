import Graft.Engine
import Graft.Text.Quoted

/-!
# Summaries

One-line texts that show the state of a part to people who look into a running engine. They
leave out most of the state and say so by two dots.
-/

namespace Graft

/-- The text of a thing with some named fields, of which others are left out. -/
def summaryOf (thing : String) (fields : List (String × String)) : String :=
  let shown := fields.map fun (name, text) => s!"{name}: {text}"
  thing ++ " \x7b " ++ ", ".intercalate (shown ++ [".."]) ++ " \x7d"

namespace Catalog

def summary (c : Catalog) : String :=
  summaryOf "Registry" [("active", toString c.size), ("sealed", toString c.isSealed)]

/-- The summary of what follows batches with the given queries. -/
def followerSummary (c : Catalog) (queries : List String) : String :=
  let list := "[" ++ ", ".intercalate (queries.map Text.quoted) ++ "]"
  summaryOf "Dispatcher" [("registry", c.summary), ("queries", list)]

/-- The summary of the mapped layer, which may or may not stand on another one. -/
def layerSummary (c : Catalog) (onAnother : Bool) : String :=
  summaryOf "SuperimposingResolver"
    [("registry", c.summary), ("has_parent", toString onAnother)]

end Catalog

def Repository.summary (r : Repository) : String :=
  summaryOf "MemoryStore"
    [("nodes", toString r.tree.size), ("subscriptions", toString r.subscriptions.length)]

namespace Engine

def Bootstrap.summary : Bootstrap → String
  | idle => "Idle"
  | running => "Running"
  | finished r =>
    let counts := s!"applied: {r.applied}, skipped: {r.skipped}, rejected: {r.rejected}"
    s!"Finished({counts}, cancelled: {r.cancelled})"
  | cancelled => "Cancelled"
  | failed => "Failed"

def summary (e : Engine) : String :=
  summaryOf "SuperimposingManager"
    [("enabled", toString e.settings.enabled), ("active", toString e.active.isSome),
      ("registry", e.catalog.summary), ("bootstrap", e.bootstrap.summary)]

end Engine

end Graft
