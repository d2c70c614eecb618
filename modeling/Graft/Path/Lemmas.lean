import Graft.Path.Basic

/-!
# Up and down a path

What each operation on paths says about the text: a path is below another exactly if it is made
from it by `child`, and the parent and the name of a child are what it was made from, as long as
the name is one segment.
-/

namespace Graft.Path

theorem textAfter_eq_some_iff {start cs rest : List Char} :
    textAfter start cs = some rest ↔ cs = start ++ rest := by
  induction start generalizing cs with
  | nil => simp [textAfter, eq_comm]
  | cons a start ih =>
    cases cs with
    | nil => simp [textAfter]
    | cons c cs =>
      by_cases h : a = c
      · simp [textAfter, h, ih]
      · simp [textAfter, h, Ne.symm h]

theorem textAfter_append (start rest : List Char) :
    textAfter start (start ++ rest) = some rest :=
  textAfter_eq_some_iff.2 rfl

/-- The part below a path is what makes the other path from it. -/
theorem below?_eq_some_iff {p a : Path} {s : String} :
    p.below? a = some s ↔ s ≠ "" ∧ p = a.child s := by
  obtain ⟨cs⟩ := p
  obtain ⟨start⟩ := a
  unfold below? child
  split
  · next c rest h =>
    rw [textAfter_eq_some_iff] at h
    simp only at h
    subst h
    simp only [Option.some.injEq, mk.injEq, List.append_cancel_left_eq, List.cons.injEq, true_and]
    constructor
    · rintro rfl
      simp
    · rintro ⟨_, h⟩
      rw [h, String.ofList_toList]
  · next h =>
    simp only [reduceCtorEq, mk.injEq, false_iff, not_and]
    intro hs hcs
    subst hcs
    cases ht : s.toList with
    | nil => simp_all
    | cons c rest => exact h c rest (textAfter_eq_some_iff.2 (by simp [ht]))

theorem isBelow_iff {p a : Path} : p.isBelow a = true ↔ ∃ s, s ≠ "" ∧ p = a.child s := by
  simp [isBelow, Option.isSome_iff_exists, below?_eq_some_iff]

theorem isWithin_iff {p a : Path} :
    p.isWithin a = true ↔ p = a ∨ ∃ s, s ≠ "" ∧ p = a.child s := by
  simp [isWithin, isBelow_iff]

theorem uppers_eq_nil {s : List Char} (h : '/' ∉ s) : uppers s = [] := by
  induction s with
  | nil => rfl
  | cons c s ih =>
    rw [List.mem_cons, not_or] at h
    simp [uppers, ih h.2, Ne.symm h.1]

theorem uppers_append (a : List Char) {s : List Char} (h : '/' ∉ s) :
    uppers (a ++ '/' :: s) = a :: uppers a := by
  induction a with
  | nil => simp [uppers, uppers_eq_nil h]
  | cons c a ih => simp [uppers, ih]

theorem afterLast?_eq_none {s : List Char} (h : '/' ∉ s) : afterLast? s = none := by
  induction s with
  | nil => rfl
  | cons c s ih =>
    rw [List.mem_cons, not_or] at h
    simp [afterLast?, ih h.2, Ne.symm h.1]

theorem afterLast?_append (a : List Char) {s : List Char} (h : '/' ∉ s) :
    afterLast? (a ++ '/' :: s) = some s := by
  induction a with
  | nil => simp [afterLast?, afterLast?_eq_none h]
  | cons c a ih => simp [afterLast?, ih]

theorem above_child {a : Path} {s : String} (ha : a.chars ≠ []) (hs : '/' ∉ s.toList) :
    (a.child s).above = a :: a.above := by
  simp [above, child, uppers_append a.chars hs, ha]

theorem parent_child {a : Path} {s : String} (ha : a.chars ≠ []) (hs : '/' ∉ s.toList) :
    (a.child s).parent = some a := by
  rw [parent, above_child ha hs, List.head?_cons]

theorem name_child {a : Path} {s : String} (hs : '/' ∉ s.toList) : (a.child s).name = s := by
  simp [name, child, afterLast?_append a.chars hs]

end Graft.Path
