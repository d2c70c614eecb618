import Graft.Change
import Graft.Table.Basic
import Graft.Value

/-!
# The content tree

The tree is a table of nodes by path. It is read through ordered ranges: the keys that start with
a given text stand together, so both the subtree of a path and its children are found from the
first key that is not smaller, as long as keys start with the text. Siblings such as `/a-b` stand
inside the range of `/a` and are left out one by one.
-/

namespace Graft

structure Node where
  tags : List String
  properties : Properties
deriving DecidableEq

def Node.bare : Node := ⟨[], .empty⟩

abbrev Tree := Table Path Node

namespace Path

def startsWith (p start : Path) : Bool := (textAfter start.chars p.chars).isSome

/-- The text with which everything below `p` begins. -/
def stem (p : Path) : Path := ⟨p.chars ++ ['/']⟩

def isChildOf (p up : Path) : Bool :=
  match textAfter up.stem.chars p.chars with
  | some rest => '/' ∉ rest
  | none => false

end Path

namespace Tree

/-- The entries whose keys begin with `start`. -/
def range (t : Tree) (start : Path) : List (Path × Node) :=
  (t.entries.dropWhile (·.1 < start)).takeWhile (·.1.startsWith start)

def subtree (t : Tree) (p : Path) : List (Path × Node) := (t.range p).filter (·.1.isWithin p)

def children (t : Tree) (p : Path) : List (Path × Node) := (t.range p.stem).filter (·.1.isChildOf p)

def prune (t : Tree) (p : Path) : Tree := (t.subtree p).foldl (fun t e => t.erase e.1) t

end Tree

end Graft
