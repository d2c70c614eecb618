import Graft.Tree.Edit

/-!
# The repository

A repository is a content tree with connections and change subscriptions. Reads and connections
can be made to fail. Every transaction is reported to the subscribers as one batch each: the
changes at or below the subscriber's scope, in order, and nothing to a subscriber whose batch
would be empty. Subscribers are served in the order in which they subscribed.
-/

namespace Graft

structure Subscription where
  id : Nat
  scope : Path
deriving DecidableEq

/-- What one subscriber is told about one transaction. -/
structure Delivery where
  subscription : Nat
  batch : List Change
deriving DecidableEq

structure Repository where
  tree : Tree
  /-- Whether every read fails. -/
  failing : Bool
  /-- Whether every connection is refused. -/
  refusing : Bool
  /-- How many connections are open. -/
  connections : Nat
  subscriptions : List Subscription
  /-- How many subscriptions there have ever been; the next one takes this number as its id. The 64-bit
  counter of ids is taken as unbounded. -/
  issued : Nat

namespace Repository

inductive Error where
  | connectionsRefused
  | feedRefused
  | unsupportedLanguage (language : String)
  | missingTag (language : String)
  | invalidScope (language : String) (scope : Path)
  | unreadable (path : Path)
  | notAbsolute (path : Path)
deriving DecidableEq

def Error.message : Error → String
  | connectionsRefused => "content store unavailable: connections refused"
  | feedRefused => "content store unavailable: feed refused"
  | unsupportedLanguage language => s!"unsupported query syntax '{language}'"
  | missingTag language => s!"{language} query failed: missing marker tag"
  | invalidScope language scope => s!"{language} query failed: invalid path '{scope}'"
  | unreadable path => s!"cannot access {path}: read failure injected"
  | notAbsolute path => s!"cannot access {path}: not an absolute path"

def empty : Repository := ⟨.empty, false, false, 0, [], 0⟩

/-! ## Connections -/

def connect (r : Repository) : Except Error Repository :=
  if r.refusing then .error .connectionsRefused
  else .ok { r with connections := r.connections + 1 }

def close (r : Repository) : Repository := { r with connections := r.connections - 1 }

/-! ## Subscriptions -/

/-- Subscribes to the changes at or below `scope`; also gives the subscription's id. -/
def subscribe (r : Repository) (scope : Path) : Except Error (Repository × Nat) :=
  match scope.normalize? with
  | none => .error (.notAbsolute scope)
  | some s =>
    .ok ({ r with
      subscriptions := r.subscriptions ++ [⟨r.issued, s⟩]
      issued := r.issued + 1 }, r.issued)

def unsubscribe (r : Repository) (id : Nat) : Repository :=
  { r with subscriptions := r.subscriptions.filter (·.id ≠ id) }

def Subscription.batch (s : Subscription) (changes : List Change) : List Change :=
  changes.filter (·.path.isWithin s.scope)

def deliveries (r : Repository) (changes : List Change) : List Delivery :=
  (r.subscriptions.map fun s => ⟨s.id, Subscription.batch s changes⟩).filter (·.batch ≠ [])

def transact (r : Repository) (edits : List Edit) : Repository × List Delivery :=
  let revision := r.tree.transact edits
  ({ r with tree := revision.tree }, r.deliveries revision.changes)

end Repository

end Graft
