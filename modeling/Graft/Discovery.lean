import Graft.Catalog
import Graft.Repository.Read

/-!
# Discovery

All declarations of a repository are found by a list of queries, each written as
`language|body`, and registered one after the other in the order found. Every query is read before
the first one runs, so a malformed one fails the whole pass before the repository is asked.

A pass polls once before each candidate whether it was cancelled. A pass in progress is a value
(`Pass`), so it can be set aside and finished later, when the repository and the catalog have
changed: what it has read is kept, what it has not read is read then.
-/

namespace Graft

/-- Why a pass found nothing. -/
inductive PassError where
  | malformedQuery (text : String)
  | repository (error : Repository.Error)
deriving DecidableEq

def PassError.message : PassError → String
  | malformedQuery text =>
    s!"query string does not contain query syntax separated by '|': {text}"
  | repository error => error.message

/-- What one pass did: how many candidates were registered with which outcome, and whether the
pass was cancelled before the last one. -/
structure Report where
  applied : Nat
  skipped : Nat
  rejected : Nat
  cancelled : Bool
deriving DecidableEq

namespace Report

def blank : Report := ⟨0, 0, 0, false⟩

def total (r : Report) : Nat := r.applied + r.skipped + r.rejected

def count (r : Report) : Catalog.Outcome → Report
  | .applied => { r with applied := r.applied + 1 }
  | .skipped => { r with skipped := r.skipped + 1 }
  | .rejected _ => { r with rejected := r.rejected + 1 }

end Report

/-- Reads a query. The first `|` stands between language and body; blanks around either do not
count. -/
def Query.parse (text : String) : Except PassError Query :=
  match text.toList.span (· ≠ '|') with
  | (language, _ :: body) => .ok ⟨String.ofList (Text.trim language), String.ofList (Text.trim body)⟩
  | (_, []) => .error (.malformedQuery text)

namespace Repository

def searchAll (r : Repository) (queries : List Query) : Except PassError (List Path) :=
  match queries with
  | [] => .ok []
  | q :: rest =>
    match r.search q with
    | .error e => .error (.repository e)
    | .ok found => (r.searchAll rest).map (found ++ ·)

def declaring (r : Repository) (queries : List String) : Except PassError (List Path) := do
  r.searchAll (← queries.mapM Query.parse)

end Repository

/-- Registers what some nodes declare, one after the other. `stop` answers the poll before each
candidate; polls are counted from zero. -/
def Catalog.sweep (r : Repository) (stop : Nat → Bool) :
    List Path → Catalog → Report → Catalog × Report
  | [], c, report => (c, report)
  | p :: rest, c, report =>
    if stop report.total then (c, { report with cancelled := true })
    else
      let (c, outcome) := c.register (r.declaration p)
      sweep r stop rest c (report.count outcome)

def Catalog.pass (c : Catalog) (r : Repository) (queries : List String) (stop : Nat → Bool) :
    Catalog × Except PassError Report :=
  match r.declaring queries with
  | .error e => (c, .error e)
  | .ok found =>
    let (c, report) := c.sweep r stop found .blank
    (c, .ok report)

/-- A pass in progress. -/
inductive Pass where
  /-- All queries are read, and some of them have run. -/
  | asking (found : List Path) (queries : List Query)
  /-- The next thing to do is to poll and go on with the first node. -/
  | polling (rest : List Path) (report : Report)
  /-- Some fields of a candidate are read. -/
  | reading (node : Path) (seen : List (Field × Option Value)) (rest : List Path) (report : Report)
deriving DecidableEq

namespace Pass

/-- Runs a pass to its end. A candidate that is being read is registered in any case. -/
def finish (r : Repository) (stop : Nat → Bool) (c : Catalog) :
    Pass → Catalog × Except PassError Report
  | asking found queries =>
    match r.searchAll queries with
    | .error e => (c, .error e)
    | .ok more =>
      let (c, report) := c.sweep r stop (found ++ more) .blank
      (c, .ok report)
  | polling rest report =>
    let (c, report) := c.sweep r stop rest report
    (c, .ok report)
  | reading node seen rest report =>
    let read f := (seen.lookup f).getD (r.field? node f)
    let (c, outcome) := c.register (.ofFields node read)
    let (c, report) := c.sweep r stop rest (report.count outcome)
    (c, .ok report)

/-- A place at which a pass can be held, or made to crash. Polls and reads are counted from zero;
each candidate takes one poll and then one read for each field. -/
inductive Gate where
  /-- Before the first query runs. -/
  | query
  /-- Before a poll. -/
  | poll (n : Nat)
  /-- Before a field is read. -/
  | read (n : Nat)
  /-- The first query crashes the pass. -/
  | crash
deriving DecidableEq

inductive Progress where
  | ended (result : Except PassError Report)
  | held (pass : Pass)
  | crashed

/-- Runs a pass that finds `found` up to its poll number `n`, if there are that many candidates. -/
def upTo (n : Nat) (r : Repository) (c : Catalog) (found : List Path) :
    Catalog × Report × List Path :=
  let (c, report) := c.sweep r (fun _ => false) (found.take n) .blank
  (c, report, found.drop n)

/-- Starts a pass that nobody cancels, and runs it to the gate. A pass that does not come to the
gate runs to its end. -/
def start (r : Repository) (queries : List String) (gate : Option Gate) (c : Catalog) :
    Catalog × Progress :=
  let toEnd := let (c, result) := c.pass r queries fun _ => false; (c, Progress.ended result)
  match gate, queries.mapM Query.parse with
  | some .query, .ok (q :: rest) => (c, .held (.asking [] (q :: rest)))
  | some .crash, .ok (_ :: _) => (c, .crashed)
  | some (.poll n), .ok parsed =>
    match r.searchAll parsed with
    | .error _ => toEnd
    | .ok found =>
      match upTo n r c found with
      | (_, _, []) => toEnd
      | (c, report, rest) => (c, .held (.polling rest report))
  | some (.read n), .ok parsed =>
    match r.searchAll parsed with
    | .error _ => toEnd
    | .ok found =>
      match upTo (n / Field.all.length) r c found with
      | (_, _, []) => toEnd
      | (c, report, node :: rest) =>
        let seen := (Field.all.take (n % Field.all.length)).map fun f => (f, r.field? node f)
        (c, .held (.reading node seen rest report))
  | _, _ => toEnd

end Pass

end Graft
