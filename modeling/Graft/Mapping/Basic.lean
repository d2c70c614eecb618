import Graft.Path.Normal

/-!
# Mappings

A mapping makes the content below its source appear below its root. Both ends are tidy paths and
neither is at or below the other, so no path lies in both trees. `Mapping.between` builds a mapping
from any two texts or names the first reason why there is none.
-/

namespace Graft

/-- Content below `source` appears below `root`. If the mapping is `overlayable`, nodes that
really exist below the root are seen instead. -/
structure Mapping where
  root : Path
  source : Path
  overlayable : Bool
  root_tidy : root.IsTidy
  source_tidy : source.IsTidy
  source_outside : source.isWithin root = false
  root_outside : root.isWithin source = false
deriving DecidableEq

/-- Why a declaration is no mapping. -/
inductive Flaw where
  | blankSource (root : Path)
  | invalidPath (path : Path)
  | noParent (node : Path)
  | pointsToItself (root : Path)
  | sourceInsideRoot (root source : Path)
  | rootInsideSource (root source : Path)
deriving DecidableEq

def Flaw.message : Flaw → String
  | blankSource root => s!"definition at {root} has no source path"
  | invalidPath path => s!"'{path}' is not a valid absolute path"
  | noParent node => s!"definition at {node} asks to register its parent, but it has none"
  | pointsToItself root => s!"superimposition at {root} points to itself"
  | sourceInsideRoot root source =>
    s!"superimposition at {root} points to its own descendant {source}"
  | rootInsideSource root source =>
    s!"superimposition at {root} points to its own ancestor {source}"

namespace Mapping

/-- The mapping between the normal forms of two texts. -/
def between (root source : Path) (overlayable : Bool) : Except Flaw Mapping :=
  if Text.trim source.chars = [] then .error (.blankSource root)
  else match hr : root.normalize? with
    | none => .error (.invalidPath root)
    | some r => match hs : source.normalize? with
      | none => .error (.invalidPath source)
      | some s =>
        if he : r = s then .error (.pointsToItself r)
        else if hsr : s.isBelow r then .error (.sourceInsideRoot r s)
        else if hrs : r.isBelow s then .error (.rootInsideSource r s)
        else .ok {
          root := r
          source := s
          overlayable
          root_tidy := Path.isTidy_of_normalize? hr
          source_tidy := Path.isTidy_of_normalize? hs
          source_outside := by simp [Path.isWithin, Ne.symm he, hsr]
          root_outside := by simp [Path.isWithin, he, hrs] }

theorem between_eq_ok_iff {root source : Path} {overlayable : Bool} {m : Mapping} :
    between root source overlayable = .ok m ↔ root.normalize? = some m.root ∧
      source.normalize? = some m.source ∧ m.overlayable = overlayable := by
  constructor
  · intro h
    unfold between at h
    repeat' split at h
    all_goals cases h
    exact ⟨by assumption, by assumption, rfl⟩
  · rintro ⟨hroot, hsource, rfl⟩
    have hblank : Text.trim source.chars ≠ [] := by
      intro hnil
      rw [Path.normalize?, hnil] at hsource
      cases hsource
    have hin := m.source_outside
    have hout := m.root_outside
    rw [Path.isWithin, Bool.or_eq_false_iff] at hin hout
    unfold between
    rw [if_neg hblank]
    split
    · next hnone => rw [hroot] at hnone; cases hnone
    next r hr =>
    obtain rfl := Option.some.inj (hr.symm.trans hroot)
    split
    · next hnone => rw [hsource] at hnone; cases hnone
    next s hs =>
    obtain rfl := Option.some.inj (hs.symm.trans hsource)
    rw [dif_neg (by simpa using hout.1), dif_neg (by simp [hin.2]), dif_neg (by simp [hout.2])]

def comesBefore (a b : Mapping) : Bool :=
  a.root < b.root ||
  (a.root == b.root && (a.source < b.source ||
    (a.source == b.source && (!a.overlayable || b.overlayable))))

theorem comesBefore_iff {a b : Mapping} : a.comesBefore b = true ↔
    a.root < b.root ∨ a.root = b.root ∧ (a.source < b.source ∨
      a.source = b.source ∧ (a.overlayable = false ∨ b.overlayable = true)) := by
  simp [comesBefore]

theorem comesBefore_trans {a b c : Mapping} (hab : a.comesBefore b = true)
    (hbc : b.comesBefore c = true) : a.comesBefore c = true := by
  rw [comesBefore_iff] at *
  grind

theorem comesBefore_antisymm {a b : Mapping} (hab : a.comesBefore b = true)
    (hba : b.comesBefore a = true) : a = b := by
  rw [comesBefore_iff] at *
  have hroot : a.root = b.root := by grind
  have hsource : a.source = b.source := by grind
  have hflag : a.overlayable = b.overlayable := by grind
  cases a
  cases b
  simp_all

theorem comesBefore_total (a b : Mapping) : (a.comesBefore b || b.comesBefore a) = true := by
  rw [Bool.or_eq_true, comesBefore_iff, comesBefore_iff]
  grind

def description (m : Mapping) : String :=
  s!"superimposition [path={m.root}, sourcePath={m.source}, overlayable={m.overlayable}]"

end Mapping

end Graft
