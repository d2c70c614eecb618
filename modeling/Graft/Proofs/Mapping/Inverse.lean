import Graft.Mapping.Carry
import Graft.Proofs.Path.Ancestors

/-!
# The two trees of a mapping

A mapping carries the tree of its root onto the tree of its source, and back. The two ways are
inverse to each other (`counterpart?_symm`), and the trees have nothing in common: two tidy paths
with something within both of them are within one another, and the ends of a mapping are not
(`not_isWithin_both`).

This is so for every text, in normal form or not.
-/

namespace Graft.Mapping

variable {start goal p q : Path}

/-- The paths within `start` have counterparts, and no others. -/
theorem isSome_counterpart? (start goal p : Path) :
    (counterpart? start goal p).isSome = p.isWithin start := by
  rw [counterpart?, Path.isWithin]
  by_cases hp : p = start
  · simp [hp]
  · simp [hp, Path.isBelow]

theorem counterpart?_eq_some_iff : counterpart? start goal p = some q ↔
    (p = start ∧ q = goal) ∨ ∃ s, s ≠ "" ∧ p = start.child s ∧ q = goal.child s := by
  rw [counterpart?]
  split
  · next hp =>
    subst hp
    constructor
    · rintro ⟨⟩
      exact Or.inl ⟨rfl, rfl⟩
    · rintro (⟨-, rfl⟩ | ⟨s, -, hs, -⟩)
      · rfl
      · exact absurd hs.symm (Path.child_ne_self p s)
  · next hp =>
    simp only [Option.map_eq_some_iff, Path.below?_eq_some_iff, hp, false_and, false_or, and_assoc,
      eq_comm (a := q)]

/-- The way back is the way there with the ends exchanged. -/
theorem counterpart?_symm :
    counterpart? start goal p = some q ↔ counterpart? goal start q = some p := by
  rw [counterpart?_eq_some_iff, counterpart?_eq_some_iff]
  simp only [and_comm]

theorem not_isWithin_both (k : Mapping) (p : Path) :
    ¬ (p.isWithin k.root = true ∧ p.isWithin k.source = true) := by
  rintro ⟨hroot, hsource⟩
  rcases Path.isWithin_or_isWithin k.root_tidy k.source_tidy hroot hsource with h | h
  · rw [k.source_outside] at h
    cases h
  · rw [k.root_outside] at h
    cases h

/-- What is sent somewhere is sent to the other tree, from which the same way leads no further. -/
theorem counterpart?_eq_none {k : Mapping} (h : counterpart? k.root k.source p = some q) :
    counterpart? k.root k.source q = none := by
  have hsource : q.isWithin k.source = true := by
    rw [← isSome_counterpart? k.source k.root, counterpart?_symm.1 h]
    rfl
  rw [← Option.not_isSome_iff_eq_none, isSome_counterpart?]
  exact fun hroot => k.not_isWithin_both q ⟨hroot, hsource⟩

/-- A mapping carries exactly the paths within its root to its source, and exactly those within its
source back. The two ways are inverse to each other. No path goes both ways, so none that a mapping
has led to is carried on by it. Who is sent somewhere by a mapping that steps aside for real nodes
finds the way back, too. -/
theorem carries_both_ways (k : Mapping) (p q : Path) :
    (k.toSource? p).isSome = p.isWithin k.root ∧
    (k.toRoot? p).isSome = p.isWithin k.source ∧
    (k.toSource? p = some q ↔ k.toRoot? q = some p) ∧
    ¬ (p.isWithin k.root = true ∧ p.isWithin k.source = true) ∧
    (k.toSource? p = some q → k.toSource? q = none) ∧
    ∀ overlaid, k.lookThrough overlaid p = some q → k.toRoot? q = some p := by
  refine ⟨isSome_counterpart? _ _ p, isSome_counterpart? _ _ p, counterpart?_symm,
    k.not_isWithin_both p, counterpart?_eq_none, ?_⟩
  intro overlaid h
  rw [lookThrough] at h
  split at h
  · cases h
  · exact counterpart?_symm.1 h

end Graft.Mapping
