import Graft.Declaration
import Graft.Tree.Basic

/-!
# Edits of the content tree

An edit turns a tree into a revision: the new tree and the changes to report, in order. A path
that has no normal form makes an edit do nothing. Nodes are created together with the nodes
above them that are missing, the uppermost first. Tags are not reported.

Several edits make one transaction, whose changes are those of its edits one after the other.
-/

namespace Graft

/-- One edit, with its paths as the caller wrote them. -/
inductive Edit where
  | addNode (path : Path)
  | declare (path : Path) (source : String) (onParent overlayable : Bool)
  | setProperty (path : Path) (name : String) (value : Value)
  | removeProperty (path : Path) (name : String)
  | addTag (path : Path) (tag : String)
  | removeNode (path : Path)
  | moveNode (path goal : Path)

/-- A tree and the changes that led to it. -/
structure Revision where
  tree : Tree
  changes : List Change

def Revision.andThen (r : Revision) (next : Tree → Revision) : Revision :=
  ⟨(next r.tree).tree, r.changes ++ (next r.tree).changes⟩

namespace Tree

def unchanged (t : Tree) : Revision := ⟨t, []⟩

/-- Creates the node at `p` and those above it, as far up as they are missing. -/
def create (t : Tree) (p : Path) : Revision :=
  let missing := p.ancestors.takeWhile (!t.contains ·)
  ⟨missing.foldr (fun q t => t.insert q .bare) t, missing.reverse.map .added⟩

def putProperty (t : Tree) (p : Path) (name : String) (value : Value) : Revision :=
  (t.create p).andThen fun t =>
    let node := (t.get? p).getD .bare
    let kind := if node.properties.contains name then .propertyChanged else .propertyAdded
    ⟨t.insert p { node with properties := node.properties.insert name value },
      [.property p name kind]⟩

def dropProperty (t : Tree) (p : Path) (name : String) : Revision :=
  match t.get? p with
  | none => t.unchanged
  | some node =>
    if node.properties.contains name then
      ⟨t.insert p { node with properties := node.properties.erase name },
        [.property p name .propertyRemoved]⟩
    else t.unchanged

def putTag (t : Tree) (p : Path) (tag : String) : Revision :=
  (t.create p).andThen fun t =>
    let node := (t.get? p).getD .bare
    ⟨t.insert p { node with tags := node.tags.insert tag }, []⟩

/-- Removes the subtree of `p`, which is one change. -/
def drop (t : Tree) (p : Path) : Revision :=
  if (t.subtree p).isEmpty then t.unchanged else ⟨t.prune p, [.removed p]⟩

/-- Where a node at or below `p` ends up when `p` is moved to `goal`. -/
def moved (p goal q : Path) : Path :=
  match q.below? p with
  | some rest => goal.child rest
  | none => goal

/-- Moves the subtree of `p` to `goal`, over what stands there. A move to `p` itself or below it
does nothing. -/
def move (t : Tree) (p goal : Path) : Revision :=
  if goal.isWithin p || (t.subtree p).isEmpty then t.unchanged
  else
    let start : Revision := ⟨t.prune p, [.removed p]⟩
    let ready := match goal.parent with
      | some up => start.andThen (·.create up)
      | none => start
    ready.andThen fun u =>
      ⟨(t.subtree p).foldl (fun u e => u.insert (moved p goal e.1) e.2) u, [.added goal]⟩

def withNormal (t : Tree) (p : Path) (next : Path → Revision) : Revision :=
  match p.normalize? with
  | some q => next q
  | none => t.unchanged

/-- Carries out one edit. A declaration is written as its node, its tag and its properties. -/
def edit (t : Tree) : Edit → Revision
  | .addNode p => t.withNormal p t.create
  | .declare p source onParent overlayable =>
    t.withNormal p fun p =>
      let written := ((t.create p).andThen (·.putTag p Declaration.marker)).andThen
        (·.putProperty p Field.source.name (.text source))
      let written := if onParent then
        written.andThen (·.putProperty p Field.onParent.name (.flag true)) else written
      if overlayable then
        written.andThen (·.putProperty p Field.overlayable.name (.flag true)) else written
  | .setProperty p name value => t.withNormal p (t.putProperty · name value)
  | .removeProperty p name => t.withNormal p (t.dropProperty · name)
  | .addTag p tag => t.withNormal p (t.putTag · tag)
  | .removeNode p => t.withNormal p t.drop
  | .moveNode p goal => t.withNormal p fun p => t.withNormal goal fun goal => t.move p goal

def transact (t : Tree) (edits : List Edit) : Revision :=
  edits.foldl (fun r e => r.andThen (·.edit e)) t.unchanged

end Tree

end Graft
