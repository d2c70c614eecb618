import Graft.Path.Basic

/-!
# Changes

What the content tree reports about an edit. A change of a property names the path of the
property: the node's path with the property's name below it.
-/

namespace Graft

inductive Change.Kind where
  | nodeAdded
  | nodeRemoved
  | propertyAdded
  | propertyChanged
  | propertyRemoved
deriving DecidableEq

structure Change where
  kind : Change.Kind
  path : Path
deriving DecidableEq

namespace Change

def Kind.isProperty : Kind → Bool
  | nodeAdded | nodeRemoved => false
  | propertyAdded | propertyChanged | propertyRemoved => true

def added (p : Path) : Change := ⟨.nodeAdded, p⟩

/-- The subtree of `p` was removed. -/
def removed (p : Path) : Change := ⟨.nodeRemoved, p⟩

def property (node : Path) (name : String) (kind : Kind) : Change := ⟨kind, node.child name⟩

end Change

end Graft
