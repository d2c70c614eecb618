import Graft.Proofs.Catalog.Declared
import Graft.Proofs.Catalog.History

/-!
# Where a flawed declaration withdraws

A declared mapping is registered at the normal form of the declaration's root, while a flawed
declaration withdraws what is active at the root as it is. Where the root is in normal form these
are one path, and a declaration that has become flawed takes its mapping with it. Elsewhere the
mapping stays (`rejection_withdraws_iff`). A node in normal form may have a root that is not,
because the parent may end in a blank.
-/

namespace Graft

namespace Declaration

variable {d d' : Declaration}

theorem root?_congr (hnode : d'.node = d.node) (hparent : d'.onParent = d.onParent) :
    d'.root? = d.root? := by
  rw [root?, root?, hnode, hparent]

/-- The root of a node that has a normal form is tidy. -/
theorem isTidy_of_root? {node root : Path} (hnode : d.node.normalize? = some node)
    (hroot : d.root? = some root) : root.IsTidy := by
  have htidy := Path.isTidy_of_normalize? hnode
  rw [root?, hnode, Option.getD_some] at hroot
  split at hroot
  · exact htidy.parent hroot
  · obtain rfl := Option.some.inj hroot
    exact htidy

end Declaration

namespace Catalog

variable {c : Catalog} {d : Declaration} {root : Path}

/-- A flawed declaration leaves nothing at its root, sealed or not, and touches no other one. -/
theorem lookup_register_flawed (h : c.Consistent) (hflawed : d.mapping.toOption = none)
    (hroot : d.root? = some root) (q : Path) :
    (c.register d).1.lookup q = if root = q then none else c.lookup q := by
  rw [lookup_register_target h, Declaration.target?, Declaration.leaves]
  cases hd : d.mapping with
  | ok m => rw [hd] at hflawed; cases hflawed
  | error flaw => simp only [hroot, Option.some.injEq]

/-- Let a node declare a mapping. The mapping stands at the declaration's root exactly if that is in
normal form, which for a node that has a normal form means that the root does not end in a blank.
Whatever has happened to the catalog, a flawed declaration of the same node for the same root leaves
nothing there if the root is in normal form, and it leaves there what was there otherwise. -/
theorem rejection_withdraws_iff {m : Mapping} (hd : d.mapping = .ok m) :
    ∃ root, d.root? = some root ∧ (root = m.root ↔ root.isNormal = true) ∧
      (d.node.normalize?.isSome = true →
        (root.isNormal = true ↔ root.chars.getLast?.any Text.isBlank = false)) ∧
      ∀ (history : List Op) (d' : Declaration), d'.node = d.node → d'.onParent = d.onParent →
        d'.mapping.toOption = none →
        ((after history).register d').1.lookup m.root =
          if root.isNormal then none else (after history).lookup m.root := by
  obtain ⟨root, hroot, hnormal⟩ := Declaration.normalize?_of_mapping hd
  have hsame : root = m.root ↔ root.isNormal = true := by
    rw [Path.isNormal_iff, hnormal, Option.some.injEq, eq_comm]
  refine ⟨root, hroot, hsame, ?_, ?_⟩
  · intro hnode
    obtain ⟨node, hnode⟩ := Option.isSome_iff_exists.1 hnode
    exact (Declaration.isTidy_of_root? hnode hroot).isNormal_iff_getLast?
  · intro history d' hnode hparent hflawed
    have hroot' := (Declaration.root?_congr hnode hparent).trans hroot
    rw [lookup_register_flawed (consistent_after history) hflawed hroot']
    simp only [hsame]

/-- A node declares a mapping at its parent's path, and the catalog is sealed before the declaration
becomes flawed. -/
theorem rejection_withdraws_iff_sealed :
    let d : Declaration := ⟨.ofString "/b//def/", some "/a", true, false⟩
    let d' : Declaration := ⟨.ofString "/b//def/", some "/b/x", true, true⟩
    let history : List Op := [.register d, .close]
    (after history).contains (.ofString "/b") = true ∧
      ((after history).register d').1.lookup (.ofString "/b") = none := by
  intro d d' history
  have hbuilt : d.mapping.isOk = true := by decide
  cases hd : d.mapping with
  | error flaw => rw [hd] at hbuilt; cases hbuilt
  | ok m =>
    obtain ⟨root, hroot, hsame, -, hregister⟩ := rejection_withdraws_iff hd
    obtain rfl : root = .ofString "/b" := Option.some.inj (hroot.symm.trans (by decide))
    have hnone := hregister history d' rfl rfl (by decide)
    rw [← hsame.2 (by decide)] at hnone
    exact ⟨by decide, hnone⟩

/-- The mapping is registered at `/a`, but the root of the declarations is `/a ` with a blank at its
end, and the mapping is still active when the node's declaration has been rejected. -/
theorem rejection_leaves_mapping :
    let d : Declaration := ⟨.ofString "/a /", some "/s", false, false⟩
    let d' : Declaration := ⟨.ofString "/a /", some "rel", false, false⟩
    let c := after [.register d, .register d']
    d.mapping.toOption.map (·.root) = some (.ofString "/a") ∧ d.root? = some (.ofString "/a ") ∧
      d'.mapping = .error (.invalidPath (.ofString "rel")) ∧
      c.mappings.map (·.root) = [.ofString "/a"] := by
  decide

end Catalog

end Graft
