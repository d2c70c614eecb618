import Graft.Proofs.Catalog.Declared
import Graft.Proofs.Catalog.Notices

/-!
# Catalogs that look alike

Two catalogs may have come to the same mappings on different ways. Handles are given out in another
order then, and the calls about different roots come in another order. Apart from that nobody can
tell them from each other: readers see the same, the same will be ignored, and the boards were told
the same of each root (`Alike`). What is done to catalogs that look alike leaves them so and is
answered alike.
-/

namespace Graft.Catalog

open Board

variable {c c' c₁ c₂ : Catalog}

/-- Readers see the same, the same will be ignored, and the boards were told the same of each
root. -/
structure Alike (c c' : Catalog) : Prop where
  consistent : c.Consistent
  consistent' : c'.Consistent
  isSealed_eq : c'.isSealed = c.isSealed
  lookup_eq : ∀ q, c'.lookup q = c.lookup q
  noticesAt_eq : ∀ root, noticesAt c'.board.calls root = noticesAt c.board.calls root

namespace Alike

theorem refl (h : c.Consistent) : Alike c c := ⟨h, h, rfl, fun _ => rfl, fun _ => rfl⟩

theorem trans (h : Alike c c₁) (h' : Alike c₁ c₂) : Alike c c₂ where
  consistent := h.consistent
  consistent' := h'.consistent'
  isSealed_eq := h'.isSealed_eq.trans h.isSealed_eq
  lookup_eq q := (h'.lookup_eq q).trans (h.lookup_eq q)
  noticesAt_eq root := (h'.noticesAt_eq root).trans (h.noticesAt_eq root)

theorem mappings_eq (h : Alike c c') : c'.mappings = c.mappings :=
  congrArg Table.values (Table.ext_get? h.lookup_eq)

theorem contains_eq (h : Alike c c') (q : Path) : c'.contains q = c.contains q :=
  congrArg Option.isSome (h.lookup_eq q)

/-- What comes of catalogs that look alike looks alike if it was told and readers see no
difference. -/
theorem of_tells (h : Alike c c') (htold : Tells c c₁) (htold' : Tells c' c₂)
    (hlook : ∀ q, c₂.lookup q = c₁.lookup q) : Alike c₁ c₂ where
  consistent := htold.consistent
  consistent' := htold'.consistent
  isSealed_eq := by rw [htold'.isSealed_eq, htold.isSealed_eq, h.isSealed_eq]
  lookup_eq := hlook
  noticesAt_eq root := by
    rw [htold'.noticesAt_eq, htold.noticesAt_eq, h.noticesAt_eq, h.lookup_eq, hlook]

theorem register (h : Alike c c') (d : Declaration) :
    Alike (c.register d).1 (c'.register d).1 ∧ (c'.register d).2 = (c.register d).2 := by
  constructor
  · apply h.of_tells (tells_register h.consistent d) (tells_register h.consistent' d)
    intro q
    rw [lookup_register_target h.consistent', lookup_register_target h.consistent, h.lookup_eq,
      h.isSealed_eq]
  · exact register_snd_congr h.consistent h.consistent' h.isSealed_eq fun root _ => h.lookup_eq root

theorem sweep (h : Alike c c') (r : Repository) (stop : Nat → Bool) (found : List Path)
    (report : Report) : Alike (c.sweep r stop found report).1 (c'.sweep r stop found report).1 ∧
      (c'.sweep r stop found report).2 = (c.sweep r stop found report).2 := by
  induction found generalizing c c' report with
  | nil => exact ⟨h, rfl⟩
  | cons p found ih =>
    unfold Catalog.sweep
    split
    · exact ⟨h, rfl⟩
    · obtain ⟨hnext, houtcome⟩ := h.register (r.declaration p)
      have hrest := ih hnext (report.count (c.register (r.declaration p)).2)
      show Alike _ (sweep r stop found (c'.register (r.declaration p)).1
          (report.count (c'.register (r.declaration p)).2)).1 ∧
        (sweep r stop found (c'.register (r.declaration p)).1
          (report.count (c'.register (r.declaration p)).2)).2 = _
      rw [houtcome]
      exact hrest

theorem pass (h : Alike c c') (r : Repository) (queries : List String) (stop : Nat → Bool) :
    Alike (c.pass r queries stop).1 (c'.pass r queries stop).1 ∧
      (c'.pass r queries stop).2 = (c.pass r queries stop).2 := by
  unfold Catalog.pass
  split
  · exact ⟨h, rfl⟩
  · next found hfound =>
    obtain ⟨halike, hreport⟩ := h.sweep r stop found .blank
    exact ⟨halike, congrArg Except.ok hreport⟩

end Alike

end Graft.Catalog
