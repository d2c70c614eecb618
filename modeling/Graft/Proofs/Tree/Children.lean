import Graft.Proofs.Tree.WellFormed

/-!
# Children

The children of a path are the nodes one segment longer, which the range of everything that begins
with the path and a separator is filtered for. They come in the order of their names
(`child_lt_child_iff`), each once.
-/

namespace Graft

namespace Path

theorem append_lt_append_iff (cs : List Char) {ds es : List Char} :
    cs ++ ds < cs ++ es ↔ ds < es := by
  induction cs with
  | nil => rfl
  | cons c cs ih =>
    rw [List.cons_append, List.cons_append, List.cons_lt_cons_iff, ih]
    constructor
    · rintro (h | ⟨-, h⟩)
      · exact absurd h (Char.lt_irrefl c)
      · exact h
    · exact fun h => Or.inr ⟨rfl, h⟩

theorem child_lt_child_iff {p : Path} {s s' : String} : p.child s < p.child s' ↔ s < s' := by
  rw [lt_def, String.lt_iff]
  show p.chars ++ '/' :: s.toList < p.chars ++ '/' :: s'.toList ↔ _
  rw [append_lt_append_iff]
  exact append_lt_append_iff ['/']

theorem isChildOf_iff {p up : Path} :
    p.isChildOf up = true ↔ ∃ s : String, '/' ∉ s.toList ∧ p = up.child s := by
  have hchild : ∀ s : String, (up.child s).chars = up.stem.chars ++ s.toList := by
    intro s
    simp [child, stem]
  unfold isChildOf
  split
  · next rest hrest =>
    rw [textAfter_eq_some_iff] at hrest
    have hp : p = up.child (String.ofList rest) := by
      apply congrArg Path.mk
      rw [hrest, stem, String.toList_ofList, List.append_assoc, List.singleton_append]
    rw [decide_eq_true_eq]
    constructor
    · exact fun hsep => ⟨_, by rwa [String.toList_ofList], hp⟩
    · rintro ⟨s, hsep, rfl⟩
      rw [hchild, List.append_cancel_left_eq] at hrest
      rwa [← hrest]
  · next hnone =>
    refine iff_of_false Bool.false_ne_true ?_
    rintro ⟨s, -, rfl⟩
    rw [hchild, textAfter_append] at hnone
    cases hnone

end Path

namespace Tree

variable {t : Tree} {p : Path} {e : Path × Node}

theorem children_sublist (t : Tree) (p : Path) : (t.children p).Sublist t.entries :=
  List.filter_sublist.trans ((List.takeWhile_sublist _).trans (List.dropWhile_sublist _))

theorem mem_children_iff :
    e ∈ t.children p ↔ e ∈ t.entries ∧ ∃ s : String, '/' ∉ s.toList ∧ e.1 = p.child s := by
  rw [children, List.mem_filter, mem_range_iff, Path.isChildOf_iff]
  constructor
  · exact fun h => ⟨h.1.1, h.2⟩
  · rintro ⟨he, s, hsep, hs⟩
    refine ⟨⟨he, Path.startsWith_iff.2 ⟨s.toList, ?_⟩⟩, s, hsep, hs⟩
    rw [hs, Path.child, Path.stem, List.append_assoc, List.singleton_append]

end Tree

end Graft
