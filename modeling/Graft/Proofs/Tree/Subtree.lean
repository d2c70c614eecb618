import Graft.Proofs.Path.Within
import Graft.Table.Lemmas
import Graft.Tree.Edit

/-!
# Ranges and subtrees

The keys that begin with a text stand together in the order of paths, so a range finds all of them
(`mem_range_iff`), the subtree of a path is what lies within it (`mem_subtree_iff`), and pruning
takes out exactly that (`get?_prune`). Keys such as `/a-b`, which stand between `/a` and `/a/x`, do
not end a range early. None of this needs the keys to be in normal form.
-/

namespace Graft

namespace Path

theorem startsWith_iff {p start : Path} :
    p.startsWith start = true ↔ ∃ rest, p.chars = start.chars ++ rest := by
  simp only [startsWith, Option.isSome_iff_exists, textAfter_eq_some_iff]

theorem startsWith_of_isWithin {p q : Path} (h : p.isWithin q = true) :
    p.startsWith q = true :=
  startsWith_iff.2 (chars_of_isWithin h)

theorem not_append_lt (cs rest : List Char) : ¬ cs ++ rest < cs := by
  induction cs with
  | nil => simp
  | cons c cs ih =>
    rw [List.cons_append, List.cons_lt_cons_iff]
    rintro (h | ⟨-, h⟩)
    · exact Char.lt_irrefl c h
    · exact ih h

theorem not_lt_of_startsWith {p start : Path} (h : p.startsWith start = true) : ¬ p < start := by
  obtain ⟨rest, hrest⟩ := startsWith_iff.1 h
  rw [lt_def, hrest]
  exact not_append_lt start.chars rest

theorem append_of_between {cs mid rest : List Char} (hle : ¬ mid < cs) (hlt : mid < cs ++ rest) :
    ∃ tail, mid = cs ++ tail := by
  induction cs generalizing mid with
  | nil => exact ⟨mid, rfl⟩
  | cons c cs ih =>
    cases mid with
    | nil => exact absurd (List.nil_lt_cons c cs) hle
    | cons d mid =>
      rw [List.cons_lt_cons_iff, not_or, not_and] at hle
      rw [List.cons_append, List.cons_lt_cons_iff] at hlt
      have htail := hlt.resolve_left hle.1
      obtain ⟨rfl, hmid⟩ := htail
      obtain ⟨tail, rfl⟩ := ih (hle.2 rfl) hmid
      exact ⟨tail, rfl⟩

/-- What sorts between a text and something that begins with it begins with it too. -/
theorem startsWith_of_between {p mid start : Path} (hle : ¬ mid < start) (hlt : mid < p)
    (h : p.startsWith start = true) : mid.startsWith start = true := by
  obtain ⟨rest, hrest⟩ := startsWith_iff.1 h
  rw [lt_def, hrest] at hlt
  exact startsWith_iff.2 (append_of_between hle hlt)

end Path

namespace Tree

/-! ## Ranges -/

/-- From a key on that is not smaller, the keys that begin with `start` come first. -/
theorem mem_takeWhile_iff {l : List (Path × Node)} {start : Path} (hl : l.Pairwise (·.1 < ·.1))
    (hge : ∀ e ∈ l, ¬ e.1 < start) (e : Path × Node) :
    e ∈ l.takeWhile (·.1.startsWith start) ↔ e ∈ l ∧ e.1.startsWith start = true := by
  induction l with
  | nil => simp
  | cons x l ih =>
    rw [List.pairwise_cons] at hl
    by_cases hx : x.1.startsWith start = true
    · rw [List.takeWhile_cons, if_pos hx, List.mem_cons, List.mem_cons,
        ih hl.2 fun e he => hge e (List.mem_cons_of_mem x he)]
      constructor
      · rintro (rfl | ⟨he, hstart⟩)
        · exact ⟨Or.inl rfl, hx⟩
        · exact ⟨Or.inr he, hstart⟩
      · rintro ⟨rfl | he, hstart⟩
        · exact Or.inl rfl
        · exact Or.inr ⟨he, hstart⟩
    · rw [List.takeWhile_cons, if_neg hx]
      constructor
      · exact fun he => absurd he List.not_mem_nil
      · rintro ⟨he, hstart⟩
        rcases List.mem_cons.1 he with rfl | he
        · exact absurd hstart hx
        · have hx' := Path.startsWith_of_between (hge x List.mem_cons_self) (hl.1 e he) hstart
          exact absurd hx' hx

theorem mem_range_iff {t : Tree} {start : Path} {e : Path × Node} :
    e ∈ t.range start ↔ e ∈ t.entries ∧ e.1.startsWith start = true := by
  have hsorted := t.sorted
  unfold range
  generalize t.entries = l at hsorted
  induction l with
  | nil => simp
  | cons x l ih =>
    by_cases hx : x.1 < start
    · rw [List.dropWhile_cons, if_pos (decide_eq_true hx), List.mem_cons]
      refine (ih hsorted.of_cons).trans ?_
      constructor
      · exact fun h => ⟨Or.inr h.1, h.2⟩
      · rintro ⟨rfl | he, hstart⟩
        · exact absurd hx (Path.not_lt_of_startsWith hstart)
        · exact ⟨he, hstart⟩
    · rw [List.dropWhile_cons, if_neg (by simpa using hx)]
      refine mem_takeWhile_iff hsorted (fun e he => ?_) e
      rcases List.mem_cons.1 he with rfl | he
      · exact hx
      · have hlt := List.rel_of_pairwise_cons hsorted he
        grind

theorem range_sorted (t : Tree) (p : Path) : (t.range p).Pairwise (·.1 < ·.1) :=
  t.sorted.sublist ((List.takeWhile_sublist _).trans (List.dropWhile_sublist _))

/-! ## Subtrees -/

theorem subtree_sorted (t : Tree) (p : Path) : (t.subtree p).Pairwise (·.1 < ·.1) :=
  (t.range_sorted p).filter _

theorem mem_subtree_iff {t : Tree} {p : Path} {e : Path × Node} :
    e ∈ t.subtree p ↔ e ∈ t.entries ∧ e.1.isWithin p = true := by
  rw [subtree, List.mem_filter, mem_range_iff]
  constructor
  · exact fun h => ⟨h.1.1, h.2⟩
  · exact fun h => ⟨⟨h.1, Path.startsWith_of_isWithin h.2⟩, h.2⟩

theorem get?_foldl_erase (l : List (Path × Node)) (t : Tree) (q : Path) :
    (l.foldl (fun t e => t.erase e.1) t).get? q =
      if q ∈ l.map (·.1) then none else t.get? q := by
  induction l generalizing t with
  | nil => simp
  | cons e l ih =>
    rw [List.foldl_cons, ih, Table.get?_erase, List.map_cons]
    by_cases hq : q = e.1
    · simp [hq]
    · simp only [List.mem_cons, hq, false_or, if_false]

/-- Pruning takes out what lies within the path and nothing else. -/
theorem get?_prune (t : Tree) (p q : Path) :
    (t.prune p).get? q = if q.isWithin p then none else t.get? q := by
  have hmem : q ∈ (t.subtree p).map (·.1) ↔ q.isWithin p = true ∧ (t.get? q).isSome = true := by
    rw [List.mem_map, Option.isSome_iff_exists]
    constructor
    · rintro ⟨⟨q', node⟩, he, rfl⟩
      obtain ⟨hentry, hwithin⟩ := mem_subtree_iff.1 he
      exact ⟨hwithin, node, Table.get?_eq_some_iff.2 hentry⟩
    · rintro ⟨hwithin, node, hnode⟩
      exact ⟨(q, node), mem_subtree_iff.2 ⟨Table.get?_eq_some_iff.1 hnode, hwithin⟩, rfl⟩
  rw [prune, get?_foldl_erase]
  by_cases hwithin : q.isWithin p = true
  · cases hq : t.get? q with
    | none => simp [hwithin]
    | some node => rw [if_pos (hmem.2 ⟨hwithin, by simp [hq]⟩), if_pos hwithin]
  · rw [if_neg fun h => hwithin (hmem.1 h).1, if_neg hwithin]

theorem contains_prune {t : Tree} {p q : Path} :
    (t.prune p).contains q = true ↔ t.contains q = true ∧ ¬ q.isWithin p = true := by
  rw [Table.contains, get?_prune]
  split
  · next hq => exact iff_of_false Bool.false_ne_true fun h => h.2 hq
  · next hq => exact (and_iff_left hq).symm

theorem subtree_isEmpty_iff {t : Tree} {p : Path} :
    (t.subtree p).isEmpty = true ↔ ∀ q, q.isWithin p = true → t.get? q = none := by
  rw [List.isEmpty_iff, List.eq_nil_iff_forall_not_mem]
  constructor
  · intro h q hq
    cases hnode : t.get? q with
    | none => rfl
    | some node =>
      exact absurd (mem_subtree_iff.2 ⟨Table.get?_eq_some_iff.1 hnode, hq⟩) (h (q, node))
  · intro h e he
    obtain ⟨hentry, hwithin⟩ := mem_subtree_iff.1 he
    have hnone := h e.1 hwithin
    rw [Table.get?_eq_some_iff.2 hentry] at hnone
    cases hnone

end Tree

end Graft
