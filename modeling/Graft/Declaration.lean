import Graft.Mapping.Basic
import Graft.Value

/-!
# Declarations

A node declares a mapping by the tag `superimpose` and up to three properties. What is read from
them is a declaration, and only a flawless declaration is a mapping (`Declaration.mapping`).
-/

namespace Graft

/-- The properties by which a node declares a mapping. -/
inductive Field where
  | source
  | onParent
  | overlayable
deriving DecidableEq

namespace Field

/-- All fields, in the order in which they are read. -/
def all : List Field := [source, onParent, overlayable]

def name : Field → String
  | source => "sourcePath"
  | onParent => "registerParent"
  | overlayable => "overlayable"

def ofName? (name : String) : Option Field := all.find? (·.name = name)

end Field

/-- What a node says about the mapping it declares. -/
structure Declaration where
  /-- The declaring node. -/
  node : Path
  /-- Where the content comes from, as written. -/
  source : Option String
  /-- Whether the mapping's root is the node's parent and not the node. -/
  onParent : Bool
  overlayable : Bool
deriving DecidableEq

namespace Declaration

/-- The tag of a declaring node. -/
def marker : String := "superimpose"

/-- The path at which the declaration's mapping appears, flawless or not. -/
def root? (d : Declaration) : Option Path :=
  let node := d.node.normalize?.getD d.node
  if d.onParent then node.parent else some node

/-- The declared mapping, or the first flaw of the declaration. -/
def mapping (d : Declaration) : Except Flaw Mapping :=
  match d.root? with
  | none => .error (.noParent d.node)
  | some root =>
    match d.source with
    | none => .error (.blankSource root)
    | some source => Mapping.between root (.ofString source) d.overlayable

theorem mapping_eq_ok_iff {d : Declaration} {m : Mapping} : d.mapping = .ok m ↔
    ∃ root text, d.root? = some root ∧ d.source = some text ∧ root.normalize? = some m.root ∧
      (Path.ofString text).normalize? = some m.source ∧ m.overlayable = d.overlayable := by
  unfold mapping
  cases hroot : d.root? with
  | none => simp
  | some root =>
    cases hsource : d.source with
    | none => simp
    | some text => simp [Mapping.between_eq_ok_iff]

/-- The declaration of `node` whose fields have the values given by `read`. A value of the wrong
kind counts as absent. -/
def ofFields (node : Path) (read : Field → Option Value) : Declaration where
  node
  source := (read .source).bind Value.asText?
  onParent := ((read .onParent).bind Value.asFlag?).getD false
  overlayable := ((read .overlayable).bind Value.asFlag?).getD false

end Declaration

end Graft
