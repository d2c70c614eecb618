import Graft.Table.Basic

/-!
# Look-ups in ordered tables

One equation per operation through `get?`, and extensionality: a table is determined by its
look-ups, because both sides list the same entries in the same strict order.
-/

namespace Graft.Table

universe u v

section Lists

variable {κ : Type u} {α : Type v} [DecidableEq κ]

theorem lookup_cons_eq_ite (k k' : κ) (a : α) (l : List (κ × α)) :
    ((k, a) :: l).lookup k' = if k' = k then some a else l.lookup k' := by
  by_cases h : k' = k
  · simp [h]
  · have : (k' == k) = false := by simp [h]
    simp [List.lookup_cons, h, this]

theorem lookup_filter_key (p : κ → Bool) (k : κ) (l : List (κ × α)) :
    (l.filter (p ·.1)).lookup k = if p k then l.lookup k else none := by
  induction l with
  | nil => simp
  | cons x l ih =>
    obtain ⟨kx, ax⟩ := x
    by_cases h : p kx <;> grind [lookup_cons_eq_ite]

/-- Where no key stands twice, an entry is what its key looks up. -/
theorem lookup_of_mem {l : List (κ × α)} (hl : (l.map (·.1)).Nodup) {k : κ} {a : α}
    (h : (k, a) ∈ l) : l.lookup k = some a := by
  induction l with
  | nil => simp at h
  | cons x l ih =>
    rw [List.map_cons, List.nodup_cons] at hl
    rcases List.mem_cons.1 h with rfl | h
    · exact List.lookup_cons_self
    · have hne : k ≠ x.1 := fun heq => hl.1 (heq ▸ List.mem_map_of_mem h)
      rw [lookup_cons_eq_ite, if_neg hne]
      exact ih hl.2 h

end Lists

variable {κ : Type u} {α : Type v} [LE κ] [LT κ] [DecidableEq κ] [DecidableLT κ]
  [Std.IsLinearOrder κ] [Std.LawfulOrderLT κ]

omit [LE κ] [Std.IsLinearOrder κ] [Std.LawfulOrderLT κ] in
theorem lookup_insertEntry (k k' : κ) (a : α) (l : List (κ × α)) :
    (insertEntry k a l).lookup k' = if k' = k then some a else l.lookup k' := by
  induction l with
  | nil => rw [insertEntry, lookup_cons_eq_ite]
  | cons x l ih =>
    obtain ⟨kx, ax⟩ := x
    unfold insertEntry
    split
    · rw [lookup_cons_eq_ite]
    · split
      · next hk => grind [lookup_cons_eq_ite]
      · next hk => grind [lookup_cons_eq_ite]

omit [LE κ] [DecidableEq κ] [DecidableLT κ] [Std.IsLinearOrder κ] [Std.LawfulOrderLT κ] in
theorem entries_eq_nil_iff {t : Table κ α} : t.entries = [] ↔ t = empty := by
  cases t
  simp [empty]

omit [LE κ] [DecidableLT κ] [Std.IsLinearOrder κ] [Std.LawfulOrderLT κ] in
@[simp] theorem get?_empty (k : κ) : (empty : Table κ α).get? k = none := rfl

theorem get?_insert (t : Table κ α) (k k' : κ) (a : α) :
    (t.insert k a).get? k' = if k' = k then some a else t.get? k' :=
  lookup_insertEntry k k' a t.entries

@[simp] theorem get?_insert_self (t : Table κ α) (k : κ) (a : α) :
    (t.insert k a).get? k = some a := by
  simp [get?_insert]

theorem contains_insert {t : Table κ α} {k k' : κ} {a : α} :
    (t.insert k a).contains k' = true ↔ k' = k ∨ t.contains k' = true := by
  rw [contains, get?_insert]
  split
  · next hk => exact iff_of_true rfl (Or.inl hk)
  · next hk => rw [or_iff_right hk, contains]

omit [LE κ] [DecidableLT κ] [Std.IsLinearOrder κ] [Std.LawfulOrderLT κ] in
theorem get?_erase (t : Table κ α) (k k' : κ) :
    (t.erase k).get? k' = if k' = k then none else t.get? k' := by
  have := lookup_filter_key (fun x => decide (x ≠ k)) k' t.entries
  rw [get?, get?, erase, filter, this]
  by_cases h : k' = k <;> simp [h]

omit [LE κ] [DecidableLT κ] [Std.IsLinearOrder κ] [Std.LawfulOrderLT κ] in
@[simp] theorem get?_erase_self (t : Table κ α) (k : κ) : (t.erase k).get? k = none := by
  simp [get?_erase]

/-- Many keys set to one value. -/
theorem get?_foldl_insert (l : List κ) (t : Table κ α) (a : α) (k : κ) :
    (l.foldl (fun t k => t.insert k a) t).get? k = if k ∈ l then some a else t.get? k := by
  induction l generalizing t with
  | nil => rfl
  | cons k' l ih =>
    rw [List.foldl_cons, ih, get?_insert]
    by_cases hk : k ∈ l
    · rw [if_pos hk, if_pos (List.mem_cons_of_mem k' hk)]
    · simp only [hk, List.mem_cons, or_false, if_false]

omit [DecidableLT κ] in
/-- An entry of an ordered list is what its key looks up. -/
theorem lookup_eq_some_iff_mem {l : List (κ × α)} (hl : l.Pairwise (·.1 < ·.1)) {k : κ} {a : α} :
    l.lookup k = some a ↔ (k, a) ∈ l := by
  induction l with
  | nil => simp
  | cons x l ih =>
    obtain ⟨kx, ax⟩ := x
    have hlt : ∀ e ∈ l, kx < e.1 := fun _ he => List.rel_of_pairwise_cons hl he
    rw [lookup_cons_eq_ite]
    by_cases h : k = kx
    · have : (k, a) ∉ l := fun hm => by have := hlt _ hm; grind
      grind
    · simp [h, ih hl.of_cons]

omit [DecidableLT κ] in
theorem get?_eq_some_iff {t : Table κ α} {k : κ} {a : α} :
    t.get? k = some a ↔ (k, a) ∈ t.entries :=
  lookup_eq_some_iff_mem t.sorted

omit [DecidableLT κ] in
theorem contains_iff_mem_keys {t : Table κ α} {k : κ} : t.contains k = true ↔ k ∈ t.keys := by
  simp [contains, keys, Option.isSome_iff_exists, get?_eq_some_iff]

omit [DecidableEq κ] [DecidableLT κ] [Std.IsLinearOrder κ] in
theorem keys_nodup (t : Table κ α) : t.keys.Nodup := by
  rw [keys, List.Nodup, List.pairwise_map]
  refine t.sorted.imp fun hlt heq => ?_
  rw [heq] at hlt
  exact absurd hlt Std.lt_irrefl

omit [DecidableLT κ] in
/-- Tables with the same keys are of one size. -/
theorem size_eq_of_contains {β : Type v} {t : Table κ α} {s : Table κ β}
    (h : ∀ k, t.contains k = s.contains k) : t.size = s.size := by
  have hperm : t.keys.Perm s.keys :=
    (List.perm_ext_iff_of_nodup t.keys_nodup s.keys_nodup).2 fun k => by
      rw [← contains_iff_mem_keys, ← contains_iff_mem_keys, h]
  have hlen := hperm.length_eq
  rw [keys, keys, List.length_map, List.length_map] at hlen
  exact hlen

omit [DecidableLT κ] in
theorem mem_values_iff {t : Table κ α} {a : α} : a ∈ t.values ↔ ∃ k, t.get? k = some a := by
  simp [values, get?_eq_some_iff]

omit [DecidableEq κ] [DecidableLT κ] in
/-- Two ordered lists with the same members are equal. -/
theorem entries_ext {l m : List (κ × α)} (hl : l.Pairwise (·.1 < ·.1))
    (hm : m.Pairwise (·.1 < ·.1)) (h : ∀ e, e ∈ l ↔ e ∈ m) : l = m := by
  induction l generalizing m with
  | nil =>
    cases m with
    | nil => rfl
    | cons y m => exact absurd ((h y).2 (by simp)) (by simp)
  | cons x l ih =>
    cases m with
    | nil => exact absurd ((h x).1 (by simp)) (by simp)
    | cons y m =>
      have hxl : ∀ e ∈ l, x.1 < e.1 := fun _ he => List.rel_of_pairwise_cons hl he
      have hym : ∀ e ∈ m, y.1 < e.1 := fun _ he => List.rel_of_pairwise_cons hm he
      have hxy : x = y := by
        rcases List.mem_cons.1 ((h x).1 (by simp)) with hx | hx
        · exact hx
        · rcases List.mem_cons.1 ((h y).2 (by simp)) with hy | hy
          · exact hy.symm
          · have h1 := hym x hx
            have h2 := hxl y hy
            grind
      subst hxy
      congr 1
      refine ih hl.of_cons hm.of_cons fun e => ⟨fun he => ?_, fun he => ?_⟩
      · rcases List.mem_cons.1 ((h e).1 (List.mem_cons_of_mem _ he)) with rfl | hm'
        · have := hxl e he; grind
        · exact hm'
      · rcases List.mem_cons.1 ((h e).2 (List.mem_cons_of_mem _ he)) with rfl | hl'
        · have := hym e he; grind
        · exact hl'

omit [DecidableLT κ] in
/-- A table is determined by its look-ups. -/
theorem ext_get? {t s : Table κ α} (h : ∀ k, t.get? k = s.get? k) : t = s := by
  have : t.entries = s.entries := entries_ext t.sorted s.sorted fun e => by
    rw [← get?_eq_some_iff (t := t) (k := e.1) (a := e.2),
      ← get?_eq_some_iff (t := s) (k := e.1) (a := e.2), h]
  cases t
  cases s
  simp_all

omit [DecidableLT κ] in
theorem erase_eq_self {t : Table κ α} {k : κ} (h : t.contains k = false) : t.erase k = t := by
  refine ext_get? fun k' => ?_
  rw [get?_erase]
  split
  · next hk =>
    rw [contains, Option.isSome_eq_false_iff, Option.isNone_iff_eq_none] at h
    rw [hk, h]
  · rfl

end Graft.Table
