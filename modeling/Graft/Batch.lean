import Graft.Discovery

/-!
# Batches of changes

A batch is first read as a whole (`Plan.of`), then carried out. The plan keeps one action for each
path, the last one that a change of the batch asks for:

* a change of a field's property asks to register the node again;
* a removal asks to unregister every active root at or below the removed path.

A batch that adds nodes and removes active roots may be a move, which the actions cannot follow; it
ends with a full pass over the repository.
-/

namespace Graft

inductive Action where
  | register
  | unregister
deriving DecidableEq

/-- What a batch asks for. -/
structure Plan where
  /-- Whether a node was added. -/
  added : Bool
  /-- Whether a removal covers an active root. -/
  removed : Bool
  actions : Table Path Action
deriving DecidableEq

namespace Plan

def empty : Plan := ⟨false, false, .empty⟩

/-- Takes in one more change, with the given roots active. -/
def note (roots : List Path) (plan : Plan) (change : Change) : Plan :=
  match change.kind with
  | .nodeAdded => { plan with added := true }
  | .nodeRemoved =>
    let hit := roots.filter (·.isWithin change.path)
    { plan with
      removed := plan.removed || !hit.isEmpty
      actions := hit.foldl (fun t root => t.insert root .unregister) plan.actions }
  | .propertyAdded | .propertyChanged | .propertyRemoved =>
    match Field.ofName? change.path.name, change.path.parent with
    | some _, some node => { plan with actions := plan.actions.insert node .register }
    | _, _ => plan

/-- Reads a batch against the mappings that are active before it. -/
def of (c : Catalog) (batch : List Change) : Plan :=
  batch.foldl (note (c.mappings.map (·.root))) empty

/-- Whether the actions are not enough. -/
def needsPass (plan : Plan) : Bool := plan.added && plan.removed

end Plan

namespace Batch

structure Outcome where
  /-- How many nodes were registered, with whatever outcome. -/
  registered : Nat
  /-- How many mappings were withdrawn by an action. -/
  unregistered : Nat
  /-- The report of the full pass, if there was one. -/
  pass : Option Report
deriving DecidableEq

def Outcome.blank : Outcome := ⟨0, 0, none⟩

end Batch

namespace Catalog

/-- Carries out actions in the given order. A node that is gone is passed over. A failing read
ends it; what was done before stays done. -/
def perform (r : Repository) :
    List (Path × Action) → Catalog → Batch.Outcome → Catalog × Except PassError Batch.Outcome
  | [], c, out => (c, .ok out)
  | (p, .unregister) :: rest, c, out =>
    let (c, wasActive) := c.unregister p
    perform r rest c { out with unregistered := out.unregistered + wasActive.toNat }
  | (p, .register) :: rest, c, out =>
    match r.has p with
    | .error e => (c, .error (.repository e))
    | .ok false => perform r rest c out
    | .ok true =>
      perform r rest (c.register (r.declaration p)).1 { out with registered := out.registered + 1 }

def carryOut (c : Catalog) (r : Repository) (queries : List String) (plan : Plan)
    (order : List (Path × Action)) : Catalog × Except PassError Batch.Outcome :=
  match c.perform r order .blank with
  | (c, .error e) => (c, .error e)
  | (c, .ok out) =>
    if plan.needsPass then
      let (c, result) := c.pass r queries fun _ => false
      (c, result.map fun report => { out with pass := some report })
    else (c, .ok out)

def follow (c : Catalog) (order : Arrangement (Path × Action)) (r : Repository)
    (queries : List String) (batch : List Change) : Catalog × Except PassError Batch.Outcome :=
  let plan := Plan.of c batch
  c.carryOut r queries plan (order.arrange plan.actions.entries)

end Catalog

end Graft
