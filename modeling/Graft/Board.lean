import Graft.Mapping.Basic

/-!
# The board

The board is where active mappings are published. Each publication gets a handle of its own,
counted from zero, and is taken down by that handle. Every call is recorded; taking down what is
not up is only counted.
-/

namespace Graft

namespace Board

inductive Call where
  | publish (root : Path) (handle : Nat)
  | withdraw (root : Path) (handle : Nat)
deriving DecidableEq

def Call.root : Call → Path
  | publish root _ => root
  | withdraw root _ => root

def Call.handle : Call → Nat
  | publish _ handle => handle
  | withdraw _ handle => handle

def Call.isPublish : Call → Bool
  | publish .. => true
  | withdraw .. => false

end Board

/-- What is up, and how it came to be so. -/
structure Board where
  /-- The handle of the next publication. The 64-bit counter of handles is taken as unbounded. -/
  next : Nat
  /-- The recorded calls, in order. -/
  calls : List Board.Call
  /-- What is up, by handle, in order of publication. -/
  up : List (Nat × Mapping)
  /-- How often something was taken down that was not up. -/
  strays : Nat

namespace Board

def empty : Board := ⟨0, [], [], 0⟩

/-- Publishes a mapping; also gives its handle. -/
def publish (b : Board) (m : Mapping) : Board × Nat :=
  ({ b with
    next := b.next + 1
    calls := b.calls ++ [.publish m.root b.next]
    up := b.up ++ [(b.next, m)] }, b.next)

def withdraw (b : Board) (handle : Nat) : Board :=
  match b.up.lookup handle with
  | some m =>
    { b with
      calls := b.calls ++ [.withdraw m.root handle]
      up := b.up.filter (·.1 ≠ handle) }
  | none => { b with strays := b.strays + 1 }

def forget (b : Board) : Board := { b with calls := [] }

def shown (b : Board) : List Mapping := (b.up.map (·.2)).mergeSort Mapping.comesBefore

/-- The number of a call's publication among those at its root, for a board that has forgotten no
call. Handles grow with every publication, so the earlier ones at the root have smaller handles. -/
def ordinal (b : Board) (call : Call) : Nat :=
  b.calls.countP fun c => c.isPublish && c.root == call.root && c.handle < call.handle

def published (b : Board) : Nat := b.calls.countP (·.isPublish)

def withdrawn (b : Board) : Nat := b.calls.countP (!·.isPublish)

end Board

end Graft
