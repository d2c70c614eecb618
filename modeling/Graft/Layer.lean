import Graft.Catalog
import Graft.Mapping.Carry
import Graft.Repository.Read

/-!
# Layers of content

A layer answers reads and takes writes. Layers stand on each other: the mapped layer shows the
content of active mappings and leaves everything else, all writes included, to the layer
beneath it, if there is one.

A layer's operations live in any monad, so that what a layer does to the one beneath can be
told from the operations it performs there.
-/

namespace Graft

/-- Content as a layer hands it out. -/
inductive Content where
  /-- A node as it is stored. -/
  | stored (node : Stored)
  /-- The node `node`, read at `mapped` and shown at `path`. -/
  | shown (path mapped : Path) (node : Stored)
deriving DecidableEq

namespace Content

def path : Content → Path
  | stored node => node.path
  | shown path _ _ => path

def properties : Content → Properties
  | stored node => node.properties
  | shown _ _ node => node.properties

end Content

inductive WriteError where
  | failed (path : Path) (why : String)
  | readOnly (path : Path)
deriving DecidableEq

def WriteError.message : WriteError → String
  | failed path why => s!"cannot persist {path}: {why}"
  | readOnly path => s!"{path} is read-only"

/-- What can be asked of a layer. -/
structure Layer (m : Type → Type) where
  resolve : Path → m (Option Content)
  list : Content → m (List Content)
  create : Path → Properties → m (Except WriteError Content)
  delete : Path → m (Except WriteError Unit)
  revert : m Unit
  commit : m (Except WriteError Unit)
  hasChanges : m Bool

namespace Catalog

/-- The mapping that covers `p`: the active one whose root is nearest above. -/
def covering (c : Catalog) (p : Path) : Option Mapping := p.ancestors.findSome? c.lookup

end Catalog

namespace Repository

/-- Whether a node really exists at `p`, as far as can be read. -/
def overlays (r : Repository) (p : Path) : Bool :=
  match r.has p with
  | .ok found => found
  | .error _ => false

def seen (r : Repository) (p : Path) : Option Stored :=
  match r.node? p with
  | .ok found => found
  | .error _ => none

def seenBelow (r : Repository) (p : Path) : List Stored :=
  match r.children p with
  | .ok found => found
  | .error _ => []

def shownAt (r : Repository) (c : Catalog) (p : Path) : Option Content := do
  let m ← c.covering p
  let mapped ← m.lookThrough r.overlays p
  let node ← r.seen mapped
  return .shown p mapped node

def shownBelow (r : Repository) (path mapped : Path) : List Content :=
  (r.seenBelow mapped).map fun node => .shown (path.child node.path.name) node.path node

end Repository

namespace Layer

variable {m : Type → Type} [Monad m]

/-- The layer that shows the repository as it is and refuses to write. -/
def ofRepository (r : Repository) : Layer m where
  resolve p := pure ((r.seen p).map .stored)
  list c := pure ((r.seenBelow c.path).map .stored)
  create p _ := pure (.error (.readOnly p))
  delete p := pure (.error (.readOnly p))
  revert := pure ()
  commit := pure (.ok ())
  hasChanges := pure false

def bottom : Layer m where
  resolve _ := pure none
  list _ := pure []
  create p _ := pure (.error (.readOnly p))
  delete p := pure (.error (.readOnly p))
  revert := pure ()
  commit := pure (.ok ())
  hasChanges := pure false

/-- The layer that shows content by active mappings, on top of `beneath`. -/
def mapped (c : Catalog) (r : Repository) (beneath : Layer m) : Layer m where
  resolve p :=
    match r.shownAt c p with
    | some content => pure (some content)
    | none => beneath.resolve p
  list content :=
    match content with
    | .shown path mapped _ => pure (r.shownBelow path mapped)
    | .stored _ => beneath.list content
  create := beneath.create
  delete := beneath.delete
  revert := beneath.revert
  commit := beneath.commit
  hasChanges := beneath.hasChanges

end Layer

end Graft
