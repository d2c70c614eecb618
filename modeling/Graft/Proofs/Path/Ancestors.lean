import Graft.Proofs.Path.Within

/-!
# The way up

A path covers what it is cut from before a separator. The ancestors of a path are the nonempty paths
that cover it, the longest first. Covering is a little more than containment: `/a` covers `/a/`, in
which there is nothing below it.
-/

namespace Graft.Path

/-- The text of `p` is that of `a`, or goes on after it with a separator. -/
def Covers (a p : Path) : Prop := p = a ∨ a.chars ++ ['/'] <+: p.chars

instance (a p : Path) : Decidable (a.Covers p) :=
  inferInstanceAs (Decidable (p = a ∨ a.chars ++ ['/'] <+: p.chars))

variable {a b p : Path}

theorem Covers.begins (h : a.Covers p) : a.chars <+: p.chars := by
  rcases h with rfl | h
  · exact List.prefix_rfl
  · exact (List.prefix_append _ _).trans h

/-- There is one way up, so two paths on it are told apart by their lengths. -/
theorem Covers.eq_of_length_eq (ha : a.Covers p) (hb : b.Covers p)
    (h : a.chars.length = b.chars.length) : a = b := by
  have hchars : a.chars = b.chars :=
    (List.prefix_of_prefix_length_le ha.begins hb.begins (Nat.le_of_eq h)).eq_of_length h
  cases a
  cases b
  exact congrArg Path.mk hchars

/-- Two paths that cover a third one are on one way up. -/
theorem Covers.covers_of_length_le (ha : a.Covers p) (hb : b.Covers p)
    (h : a.chars.length ≤ b.chars.length) : a.Covers b := by
  rcases Nat.eq_or_lt_of_le h with heq | hlt
  · exact Or.inl (ha.eq_of_length_eq hb heq).symm
  · rcases ha with rfl | hpre
    · exact absurd hb.begins.length_le (Nat.not_le_of_lt hlt)
    · right
      apply List.prefix_of_prefix_length_le hpre hb.begins
      rw [List.length_append, List.length_singleton]
      exact hlt

/-- What a path covers is within it, but for the path with a separator at its end. -/
theorem isWithin_iff_covers : p.isWithin a = true ↔ a.Covers p ∧ p.chars ≠ a.chars ++ ['/'] := by
  rw [isWithin_iff]
  constructor
  · rintro (rfl | ⟨s, hs, rfl⟩)
    · refine ⟨Or.inl rfl, fun hend => ?_⟩
      simpa using congrArg List.length hend
    · have hsplit : (a.child s).chars = (a.chars ++ ['/']) ++ s.toList := by simp [child]
      refine ⟨Or.inr ⟨s.toList, hsplit.symm⟩, fun hend => hs ?_⟩
      rw [hsplit] at hend
      simpa using hend
  · rintro ⟨rfl | ⟨rest, hrest⟩, hend⟩
    · exact Or.inl rfl
    · refine Or.inr ⟨String.ofList rest, ?_, ?_⟩
      · intro hempty
        have hnil : rest = [] := by simpa using congrArg String.toList hempty
        rw [hnil, List.append_nil] at hrest
        exact hend hrest.symm
      · rw [List.append_assoc, List.singleton_append] at hrest
        rw [child, String.toList_ofList, hrest]

/-- A tidy path ends in a segment. -/
theorem IsTidy.chars_ne_append_separator (h : p.IsTidy) (cs : List Char) :
    p.chars ≠ cs ++ ['/'] := by
  obtain ⟨ss, hss, hgood, rfl⟩ := h
  obtain ⟨front, s, rfl⟩ : ∃ front s, ss = front ++ [s] :=
    ⟨_, _, (List.dropLast_concat_getLast hss).symm⟩
  obtain ⟨hne, hsep, -⟩ := hgood s (by simp)
  obtain ⟨init, c, rfl⟩ : ∃ init c, s = init ++ [c] :=
    ⟨_, _, (List.dropLast_concat_getLast hne).symm⟩
  have hchars : (ofSegments (front ++ [init ++ [c]])).chars =
      ((ofSegments front).chars ++ '/' :: init) ++ [c] := by
    simp [ofSegments]
  intro heq
  rw [hchars] at heq
  obtain rfl : c = '/' := by simpa using (List.append_inj' heq rfl).2
  exact hsep (by simp)

/-- Of two tidy paths that have something in common one is within the other. -/
theorem isWithin_or_isWithin (hta : a.IsTidy) (htb : b.IsTidy) (ha : p.isWithin a = true)
    (hb : p.isWithin b = true) : b.isWithin a = true ∨ a.isWithin b = true := by
  have hca := (isWithin_iff_covers.1 ha).1
  have hcb := (isWithin_iff_covers.1 hb).1
  rcases Nat.le_total a.chars.length b.chars.length with hle | hle
  · left
    exact isWithin_iff_covers.2 ⟨hca.covers_of_length_le hcb hle, htb.chars_ne_append_separator _⟩
  · right
    exact isWithin_iff_covers.2 ⟨hcb.covers_of_length_le hca hle, hta.chars_ne_append_separator _⟩

theorem mem_uppers_iff {u cs : List Char} : u ∈ uppers cs ↔ u ++ ['/'] <+: cs := by
  induction cs generalizing u with
  | nil => simp [uppers]
  | cons c cs ih =>
    rw [uppers, List.mem_append, List.mem_map]
    constructor
    · rintro (⟨v, hv, rfl⟩ | hu)
      · rw [List.cons_append, List.cons_prefix_cons]
        exact ⟨rfl, ih.1 hv⟩
      · split at hu
        · next hc =>
          obtain rfl := List.mem_singleton.1 hu
          simp [hc]
        · exact absurd hu List.not_mem_nil
    · intro hu
      cases u with
      | nil =>
        right
        rw [List.nil_append, List.cons_prefix_cons] at hu
        rw [if_pos hu.1.symm]
        exact List.mem_singleton_self _
      | cons d v =>
        left
        rw [List.cons_append, List.cons_prefix_cons] at hu
        obtain ⟨rfl, hv⟩ := hu
        exact ⟨v, ih.2 hv, rfl⟩

theorem uppers_sorted (cs : List Char) :
    (uppers cs).Pairwise fun u v => v.length < u.length := by
  induction cs with
  | nil => exact List.Pairwise.nil
  | cons c cs ih =>
    rw [uppers, List.pairwise_append]
    refine ⟨?_, ?_, ?_⟩
    · rw [List.pairwise_map]
      exact ih.imp fun h => Nat.succ_lt_succ h
    · split
      · exact List.pairwise_singleton _ _
      · exact List.Pairwise.nil
    · intro u hu v hv
      obtain ⟨w, -, rfl⟩ := List.mem_map.1 hu
      split at hv
      · obtain rfl := List.mem_singleton.1 hv
        exact Nat.succ_pos _
      · exact absurd hv List.not_mem_nil

theorem mem_above_iff : a ∈ p.above ↔ a.chars ≠ [] ∧ a.chars ++ ['/'] <+: p.chars := by
  rw [above, List.mem_map]
  constructor
  · rintro ⟨u, hu, rfl⟩
    obtain ⟨hmem, hne⟩ := List.mem_filter.1 hu
    exact ⟨of_decide_eq_true hne, mem_uppers_iff.1 hmem⟩
  · rintro ⟨hne, hpre⟩
    exact ⟨a.chars, List.mem_filter.2 ⟨mem_uppers_iff.2 hpre, decide_eq_true hne⟩, rfl⟩

/-! ## Parents -/

/-- A text is cut at its last separator, if it has one. -/
theorem exists_append_of_separator {cs : List Char} (h : '/' ∈ cs) :
    ∃ front back, cs = front ++ '/' :: back ∧ '/' ∉ back := by
  obtain ⟨back, front, hsplit, hback⟩ := List.eq_append_cons_of_mem (List.mem_reverse.2 h)
  refine ⟨front.reverse, back.reverse, ?_, fun hmem => hback (List.mem_reverse.1 hmem)⟩
  have hreverse := congrArg List.reverse hsplit
  simpa using hreverse

/-- A path is made from its parent by one segment, which may be empty. -/
theorem parent_eq_some_iff :
    p.parent = some a ↔ a.chars ≠ [] ∧ ∃ s : String, '/' ∉ s.toList ∧ p = a.child s := by
  constructor
  · intro h
    obtain ⟨hne, hpre⟩ := mem_above_iff.1 (List.mem_of_head? h)
    obtain ⟨front, back, hsplit, hback⟩ :=
      exists_append_of_separator (hpre.subset (List.mem_append_right _ (List.mem_singleton_self _)))
    have hp : p = child ⟨front⟩ (String.ofList back) := by
      rw [child, String.toList_ofList, ← hsplit]
    have hsep : '/' ∉ (String.ofList back).toList := by
      rw [String.toList_ofList]
      exact hback
    have hfront : front ≠ [] := by
      rintro rfl
      rw [parent, above, hp, child, uppers_append _ hsep] at h
      cases h
    rw [hp, parent_child hfront hsep] at h
    obtain rfl := Option.some.inj h
    exact ⟨hfront, _, hsep, hp⟩
  · rintro ⟨hne, s, hs, rfl⟩
    exact parent_child hne hs

theorem above_of_parent (h : p.parent = some a) : p.above = a :: a.above := by
  obtain ⟨hne, s, hs, rfl⟩ := parent_eq_some_iff.1 h
  exact above_child hne hs

theorem length_lt_of_parent (h : p.parent = some a) : a.chars.length < p.chars.length := by
  have hle := (mem_above_iff.1 (List.mem_of_head? h)).2.length_le
  rw [List.length_append, List.length_singleton] at hle
  exact hle

/-- What holds of a path once it holds of its parent holds of all paths. -/
theorem parent_induction {P : Path → Prop} (h : ∀ p, (∀ up, p.parent = some up → P up) → P p)
    (p : Path) : P p := by
  induction hlength : p.chars.length using Nat.strongRecOn generalizing p with
  | ind n ih =>
    apply h
    intro up hup
    exact ih _ (hlength ▸ length_lt_of_parent hup) up rfl

/-- A path with a last segment is within its parent. -/
theorem isWithin_of_parent (h : p.parent = some a) (hname : p.name ≠ "") : p.isWithin a = true := by
  have hpre := (mem_above_iff.1 (List.mem_of_head? h)).2
  refine isWithin_iff_covers.2 ⟨Or.inr hpre, fun hend => hname ?_⟩
  have hp : p = a.child "" := congrArg Path.mk hend
  rw [hp]
  exact name_child (by simp)

theorem mem_ancestors_iff (ha : a.chars ≠ []) : a ∈ p.ancestors ↔ a.Covers p := by
  rw [ancestors, List.mem_cons, mem_above_iff]
  constructor
  · rintro (rfl | ⟨-, hpre⟩)
    · exact Or.inl rfl
    · exact Or.inr hpre
  · rintro (rfl | hpre)
    · exact Or.inl rfl
    · exact Or.inr ⟨ha, hpre⟩

theorem ancestors_sorted (p : Path) :
    p.ancestors.Pairwise fun a b => b.chars.length < a.chars.length := by
  rw [ancestors, List.pairwise_cons]
  constructor
  · intro a ha
    have hle := (mem_above_iff.1 ha).2.length_le
    rw [List.length_append, List.length_singleton] at hle
    omega
  · rw [above, List.pairwise_map]
    exact (uppers_sorted p.chars).filter _

end Graft.Path
