import Graft.Mapping.Basic
import Graft.Proofs.Path.Normal

/-!
# Mappings built again

The ends of a mapping are normal forms, but a normal form that ends in a blank is not in normal form
itself. So a mapping is not always what is built between its own ends. It is, and its ends are in
normal form, exactly if neither text that it was built from ends in a blank
(`normal_form_stable_iff`).
-/

namespace Graft.Mapping

/-- A mapping is built again from ends in normal form, and from no others. -/
theorem between_ends_iff {m : Mapping} : between m.root m.source m.overlayable = .ok m ↔
    m.root.isNormal = true ∧ m.source.isNormal = true := by
  rw [between_eq_ok_iff, Path.isNormal_iff, Path.isNormal_iff]
  simp

/-- A normal form is its own normal form exactly if the path that it was made from does not end in a
blank. The ends of a mapping are in normal form, and the mapping is built from them again, exactly
if this holds of both texts that it was built from. -/
theorem normal_form_stable_iff (p q root source : Path) (overlayable : Bool) (m : Mapping) :
    (p.normalize? = some q → (q.normalize? = some q ↔ p.endsInBlank = false)) ∧
    (between root source overlayable = .ok m →
      (m.root.isNormal = true ↔ root.endsInBlank = false) ∧
      (m.source.isNormal = true ↔ source.endsInBlank = false) ∧
      (between m.root m.source m.overlayable = .ok m ↔
        root.endsInBlank = false ∧ source.endsInBlank = false)) := by
  constructor
  · intro hpq
    rw [← Path.isNormal_iff]
    exact Path.isNormal_iff_endsInBlank hpq
  · intro hm
    obtain ⟨hroot, hsource, -⟩ := between_eq_ok_iff.1 hm
    have hroot_iff := Path.isNormal_iff_endsInBlank hroot
    have hsource_iff := Path.isNormal_iff_endsInBlank hsource
    refine ⟨hroot_iff, hsource_iff, ?_⟩
    rw [between_ends_iff, hroot_iff, hsource_iff]

/-- Blanks do no harm around the text and inside it. -/
theorem normal_form_stable_iff_spaced :
    let p := Path.ofString " /a // b/ "
    let q := Path.ofString "/a / b"
    p.normalize? = some q ∧ q.normalize? = some q ∧
    ∃ m, between p (.ofString "/c//") true = .ok m ∧ m.root = q ∧
      between m.root m.source m.overlayable = .ok m := by
  intro p q
  have hq : p.normalize? = some q := by decide
  have hbuilt : (between p (.ofString "/c//") true).isOk = true := by decide
  cases hm : between p (.ofString "/c//") true with
  | error flaw => rw [hm] at hbuilt; cases hbuilt
  | ok m =>
    obtain ⟨hpath, hmapping⟩ := normal_form_stable_iff p q p (.ofString "/c//") true m
    have hroot := Option.some.inj ((between_eq_ok_iff.1 hm).1.symm.trans hq)
    exact ⟨hq, (hpath hq).2 (by decide), m, rfl, hroot, (hmapping hm).2.2.2 (by decide)⟩

/-- The blank before the last separator comes to the end of the normal form. This has another normal
form, or none, and no mapping is built again from ends of which one is like this. -/
theorem normal_form_unstable :
    (Path.ofString "/a /").normalize? = some (.ofString "/a ") ∧
    (Path.ofString "/a ").normalize? = some (.ofString "/a") ∧
    (Path.ofString "/ /").normalize? = some (.ofString "/ ") ∧
    (Path.ofString "/ ").normalize? = none ∧
    (between (.ofString "/a /") (.ofString "/s") false).isOk = true ∧
    ∀ m, between (.ofString "/a /") (.ofString "/s") false = .ok m →
      between m.root m.source m.overlayable ≠ .ok m := by
  refine ⟨by decide, by decide, by decide, by decide, by decide, ?_⟩
  intro m hm hagain
  have hroot : (Path.ofString "/a /").normalize? = some m.root := (between_eq_ok_iff.1 hm).1
  have hnormal := (Path.isNormal_iff_endsInBlank hroot).1 (between_ends_iff.1 hagain).1
  exact absurd hnormal (by decide)

end Graft.Mapping
