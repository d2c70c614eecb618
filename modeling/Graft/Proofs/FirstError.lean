import Mathlib.Data.List.Forall2

/-!
# The first error of a list

What may fail is done for one element of a list after the other. It succeeds if it succeeds for each
of them (`mapM_eq_ok_iff`). Otherwise its error is the one of the first element that fails, whatever
may be wrong with the ones behind it (`mapM_eq_error_iff`).
-/

namespace Graft

variable {α β ε : Type} {f : α → Except ε β} {a : α} {l : List α} {e : ε}

theorem mapM_cons_eq_ok_iff {bs : List β} : (a :: l).mapM f = .ok bs ↔
    ∃ b rest, f a = .ok b ∧ l.mapM f = .ok rest ∧ b :: rest = bs := by
  rw [List.mapM_cons]
  cases f a with
  | error e => simp [bind, Except.bind]
  | ok b =>
    cases l.mapM f with
    | error e => simp [bind, Except.bind]
    | ok rest => simp [bind, Except.bind, pure, Except.pure]

theorem mapM_cons_eq_error_iff : (a :: l).mapM f = .error e ↔
    f a = .error e ∨ (∃ b, f a = .ok b) ∧ l.mapM f = .error e := by
  rw [List.mapM_cons]
  cases f a with
  | error e => simp [bind, Except.bind]
  | ok b =>
    cases l.mapM f with
    | error e => simp [bind, Except.bind]
    | ok rest => simp [bind, Except.bind, pure, Except.pure]

theorem mapM_eq_ok_iff {bs : List β} :
    l.mapM f = .ok bs ↔ List.Forall₂ (fun a b => f a = .ok b) l bs := by
  induction l generalizing bs with
  | nil =>
    rw [List.forall₂_nil_left_iff, List.mapM_nil]
    exact ⟨fun h => (Except.ok.inj h).symm, fun h => congrArg Except.ok h.symm⟩
  | cons a l ih =>
    rw [mapM_cons_eq_ok_iff, List.forall₂_cons_left_iff]
    simp only [ih, exists_and_left, eq_comm (a := bs)]

theorem mapM_eq_error_iff : l.mapM f = .error e ↔ ∃ before a after, l = before ++ a :: after ∧
    (∀ x ∈ before, ∃ b, f x = .ok b) ∧ f a = .error e := by
  induction l with
  | nil =>
    constructor
    · rintro ⟨⟩
    · rintro ⟨before, a, after, h, -⟩
      exact absurd h.symm (by simp)
  | cons a l ih =>
    rw [mapM_cons_eq_error_iff, ih]
    constructor
    · rintro (ha | ⟨ha, before, a', after, rfl, hbefore, ha'⟩)
      · exact ⟨[], a, l, rfl, nofun, ha⟩
      · exact ⟨a :: before, a', after, rfl, List.forall_mem_cons.2 ⟨ha, hbefore⟩, ha'⟩
    · rintro ⟨before, a', after, hsplit, hbefore, ha'⟩
      cases before with
      | nil =>
        obtain ⟨rfl, rfl⟩ := List.cons.inj hsplit
        exact Or.inl ha'
      | cons x before =>
        obtain ⟨rfl, rfl⟩ := List.cons.inj hsplit
        obtain ⟨ha, hbefore⟩ := List.forall_mem_cons.1 hbefore
        exact Or.inr ⟨ha, before, a', after, rfl, hbefore, ha'⟩

/-- The whole list fails if anything in it does. -/
theorem exists_mapM_eq_error_iff :
    (∃ e, l.mapM f = .error e) ↔ ∃ a ∈ l, ∃ e, f a = .error e := by
  induction l with
  | nil =>
    constructor
    · rintro ⟨e, ⟨⟩⟩
    · rintro ⟨a, ha, -⟩
      exact absurd ha List.not_mem_nil
  | cons a l ih =>
    simp only [mapM_cons_eq_error_iff, exists_or, exists_and_left, ih, List.exists_mem_cons_iff]
    cases f a with
    | error e => simp
    | ok b => simp

end Graft
