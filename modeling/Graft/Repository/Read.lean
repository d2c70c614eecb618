import Graft.Repository.Basic

/-!
# Reading the repository

Nodes, properties, children and tagged nodes. A read names the path it was made for when it fails.
-/

namespace Graft

/-- A node as it is handed out: its path and its properties. -/
structure Stored where
  path : Path
  properties : Properties
deriving DecidableEq

/-- A search, in a query language that the repository may or may not understand. -/
structure Query where
  language : String
  body : String
deriving DecidableEq

namespace Repository

/-- Fails on behalf of `p` while reads fail. -/
def guardRead (r : Repository) (p : Path) : Except Error Unit :=
  if r.failing then .error (.unreadable p) else .ok ()

def node? (r : Repository) (p : Path) : Except Error (Option Stored) := do
  r.guardRead p
  return (r.tree.get? p).map (⟨p, ·.properties⟩)

def has (r : Repository) (p : Path) : Except Error Bool := do
  r.guardRead p
  return r.tree.contains p

def property? (r : Repository) (p : Path) (name : String) : Except Error (Option Value) := do
  r.guardRead p
  return (r.tree.get? p).bind (·.properties.get? name)

def children (r : Repository) (p : Path) : Except Error (List Stored) := do
  r.guardRead p
  return (r.tree.children p).map fun e => ⟨e.1, e.2.properties⟩

/-- The nodes with a tag, in path order; with a scope, only those at or below it. -/
def tagged (r : Repository) (tag : String) (scope : Option Path) : List Path :=
  (r.tree.entries.filter fun e =>
    e.2.tags.contains tag && scope.all e.1.isWithin).map (·.1)

def markerLanguage : String := "marker"

/-- Runs a search. Its body is a tag and, optionally, a scope; further words do not count. -/
def search (r : Repository) (q : Query) : Except Error (List Path) :=
  if Text.trimmed q.language ≠ markerLanguage then .error (.unsupportedLanguage q.language)
  else match Text.words q.body.toList with
    | [] => .error (.missingTag q.language)
    | [tag] => do
      r.guardRead ⟨['/']⟩
      return r.tagged (String.ofList tag) none
    | tag :: scope :: _ =>
      match Path.normalize? ⟨scope⟩ with
      | none => .error (.invalidScope q.language ⟨scope⟩)
      | some s => do
        r.guardRead s
        return r.tagged (String.ofList tag) (some s)

/-- A field of the declaration at `p`. What cannot be read counts as absent. -/
def field? (r : Repository) (p : Path) (f : Field) : Option Value :=
  match r.property? p f.name with
  | .ok value => value
  | .error _ => none

/-- What the node at `p` declares. It is read from the node itself, never through a mapping. -/
def declaration (r : Repository) (p : Path) : Declaration := .ofFields p (r.field? p)

end Repository

end Graft
