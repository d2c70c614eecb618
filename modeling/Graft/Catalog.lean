import Graft.Board
import Graft.Declaration
import Graft.Table.Lemmas

/-!
# The catalog of active mappings

At most one mapping is active at a root. A mapping becomes active when it is registered, unless the
catalog is sealed or the very same mapping is active already; a different one at its root is
withdrawn first. A flawed declaration withdraws what is active at its root, sealed or not.

The catalog keeps three things in step: the slots, which know the handle under which a mapping was
published, the mappings that readers see, and the board. A reader never sees a mapping that is not
on the board: a mapping leaves the readers' sight before it is taken down, and enters it after it is
put up.
-/

namespace Graft

namespace Catalog

structure Entry where
  mapping : Mapping
  handle : Nat
deriving DecidableEq

inductive Outcome where
  | applied
  | skipped
  | rejected (flaw : Flaw)
deriving DecidableEq

end Catalog

/-- The active mappings by root, and the board that shows them. -/
structure Catalog where
  /-- What was published at each root and not withdrawn since. -/
  slots : Table Path Catalog.Entry
  /-- What readers see at each root. -/
  visible : Table Path Mapping
  /-- Whether registrations are ignored. -/
  isSealed : Bool
  board : Board

namespace Catalog

def empty : Catalog := ⟨.empty, .empty, false, .empty⟩

/-! ## Reading -/

def lookup (c : Catalog) (root : Path) : Option Mapping := c.visible.get? root

def contains (c : Catalog) (root : Path) : Bool := c.visible.contains root

def mappings (c : Catalog) : List Mapping := c.visible.values

def size (c : Catalog) : Nat := c.visible.size

def isEmpty (c : Catalog) : Bool := c.visible.entries.isEmpty

/-! ## Writing -/

/-- Ignores registrations from now on. -/
def close (c : Catalog) : Catalog := { c with isSealed := true }

def reopen (c : Catalog) : Catalog := { c with isSealed := false }

/-- Takes what an entry published out of sight, then off the board. The slots are the caller's. -/
def withdraw (c : Catalog) (e : Entry) : Catalog :=
  { c with visible := c.visible.erase e.mapping.root, board := c.board.withdraw e.handle }

/-- Withdraws what is active at `root`; also tells whether something was. -/
def unregister (c : Catalog) (root : Path) : Catalog × Bool :=
  match c.slots.get? root with
  | some e => ({ c.withdraw e with slots := c.slots.erase root }, true)
  | none => (c, false)

def activate (c : Catalog) (m : Mapping) : Catalog :=
  let (board, handle) := c.board.publish m
  { c with
    slots := c.slots.insert m.root ⟨m, handle⟩
    visible := c.visible.insert m.root m
    board }

def install (c : Catalog) (m : Mapping) : Catalog × Outcome :=
  if c.isSealed then (c, .skipped)
  else match c.slots.get? m.root with
    | none => (c.activate m, .applied)
    | some e => if e.mapping = m then (c, .skipped) else ((c.withdraw e).activate m, .applied)

/-- Registers the mapping that `d` declares. -/
def register (c : Catalog) (d : Declaration) : Catalog × Outcome :=
  match d.mapping with
  | .ok m => c.install m
  | .error flaw =>
    let left := match d.root? with
      | some root => (c.unregister root).1
      | none => c
    (left, .rejected flaw)

/-- Empties the slots and withdraws the given entries; also tells how many there were. -/
def clearIn (c : Catalog) (order : List Entry) : Catalog × Nat :=
  (order.foldl withdraw { c with slots := .empty }, order.length)

/-- Withdraws every mapping, in the given order; also tells how many there were. -/
def clear (c : Catalog) (order : Arrangement Entry) : Catalog × Nat :=
  c.clearIn (order.arrange c.slots.values)

end Catalog

end Graft
