import Graft.Path.Lemmas
import Graft.Path.Normal

/-!
# Containment of paths

Containment is an order on all texts: a path within another is made from it by `child`, and children
of children are children. Paths in normal form have a first segment, so they are the child of
something nonempty once they have a parent at all.
-/

namespace Graft.Path

/-! ## Containment -/

theorem child_child (p : Path) (s s' : String) :
    (p.child s).child s' = p.child (s ++ "/" ++ s') := by
  simp [child]

theorem child_ne_self (p : Path) (s : String) : p.child s ≠ p := by
  intro h
  have hlength := congrArg (fun p : Path => p.chars.length) h
  simp [child] at hlength

theorem isWithin_trans {p q r : Path} (hpq : p.isWithin q = true) (hqr : q.isWithin r = true) :
    p.isWithin r = true := by
  rcases isWithin_iff.1 hpq with rfl | ⟨s, hs, rfl⟩
  · exact hqr
  rcases isWithin_iff.1 hqr with rfl | ⟨s', hs', rfl⟩
  · exact hpq
  refine isWithin_iff.2 (Or.inr ⟨s' ++ "/" ++ s, ?_, child_child r s' s⟩)
  intro hempty
  exact hs' (String.append_eq_empty_iff.1 (String.append_eq_empty_iff.1 hempty).1).1

theorem child_isWithin {p q : Path} {s : String} (hs : s ≠ "") (h : p.isWithin q = true) :
    (p.child s).isWithin q = true :=
  isWithin_trans (isWithin_iff.2 (Or.inr ⟨s, hs, rfl⟩)) h

/-- What lies within a path begins with its text. -/
theorem chars_of_isWithin {p q : Path} (h : p.isWithin q = true) :
    ∃ rest, p.chars = q.chars ++ rest := by
  rcases isWithin_iff.1 h with rfl | ⟨s, -, rfl⟩
  · exact ⟨[], (List.append_nil _).symm⟩
  · exact ⟨'/' :: s.toList, rfl⟩

/-! ## Normal form -/

theorem isNormal_iff {p : Path} : p.isNormal = true ↔ p.normalize? = some p := by
  simp [isNormal]

theorem chars_ne_nil_of_isTidy {p : Path} (h : p.IsTidy) : p.chars ≠ [] := by
  obtain ⟨ss, hss, -, rfl⟩ := h
  obtain ⟨s, ss, rfl⟩ := List.exists_cons_of_ne_nil hss
  simp [ofSegments]

theorem isTidy_of_isNormal {p : Path} (h : p.isNormal = true) : p.IsTidy :=
  isTidy_of_normalize? (isNormal_iff.1 h)

theorem chars_ne_nil_of_isNormal {p : Path} (h : p.isNormal = true) : p.chars ≠ [] :=
  chars_ne_nil_of_isTidy (isTidy_of_isNormal h)

end Graft.Path
