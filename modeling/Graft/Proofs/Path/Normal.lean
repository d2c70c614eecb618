import Graft.Proofs.Path.Tidy
import Mathlib.Data.List.Induction

/-!
# Paths in normal form

A path is in normal form exactly if it has no blank at either end and is made of its own segments,
of which there is at least one and none of dots (`isNormal_iff_parts`). What lies below a path in
normal form is in normal form wherever else it is put (`isNormal_child_of_child`).

Not every normal form is in normal form. A text is trimmed before it is cut into segments, and the
separators at its end are lost with the cutting. A blank right before them then comes to stand at
the end, and nothing else can go wrong (`isNormal_iff_endsInBlank`).
-/

namespace Graft

/-! ## Trimming -/

namespace Text

variable {cs : List Char}

theorem dropWhile_isBlank {c : Char} (hc : isBlank c = false) (cs : List Char) :
    (c :: cs).dropWhile isBlank = c :: cs := by
  rw [List.dropWhile_cons, hc, if_neg (by simp)]

/-- A text without a blank at either end is trimmed already. -/
theorem trim_eq_self {c d : Char} (hc : isBlank c = false) (hd : isBlank d = false)
    (cs : List Char) : trim (c :: cs ++ [d]) = c :: cs ++ [d] := by
  rw [trim, List.cons_append, dropWhile_isBlank hc, ← List.cons_append, List.reverse_append,
    List.reverse_singleton, List.singleton_append, dropWhile_isBlank hd, ← List.singleton_append,
    List.reverse_append, List.reverse_reverse, List.reverse_singleton]

theorem reverse_dropWhile_sublist (cs : List Char) :
    (cs.reverse.dropWhile isBlank).reverse.Sublist cs := by
  have h := (List.dropWhile_sublist (l := cs.reverse) isBlank).reverse
  rw [List.reverse_reverse] at h
  exact h

theorem trim_sublist (cs : List Char) : (trim cs).Sublist cs :=
  (reverse_dropWhile_sublist _).trans (List.dropWhile_sublist _)

/-- A trimmed text does not end in a blank. -/
theorem not_isBlank_of_trim {d : Char} (h : trim (cs ++ [d]) = cs ++ [d]) : isBlank d = false := by
  have hstart : (cs ++ [d]).dropWhile isBlank = cs ++ [d] := by
    have hsub := reverse_dropWhile_sublist ((cs ++ [d]).dropWhile isBlank)
    rw [← trim, h] at hsub
    exact (List.dropWhile_sublist _).antisymm hsub
  rw [trim, hstart, List.reverse_append, List.reverse_singleton, List.singleton_append] at h
  rw [← Bool.not_eq_true]
  intro hblank
  rw [List.dropWhile_cons, if_pos hblank] at h
  have hlength := (reverse_dropWhile_sublist cs).length_le
  rw [h, List.length_append, List.length_singleton] at hlength
  omega

end Text

/-! ## Normal form -/

namespace Path

/-- What a path in normal form is made of. -/
theorem isNormal_iff_parts {p : Path} : p.isNormal = true ↔
    ∃ rest, p.chars = '/' :: rest ∧ Text.trim p.chars = p.chars ∧ segments rest ≠ [] ∧
      (segments rest).any isDots = false ∧ ofSegments (segments rest) = p := by
  rw [isNormal_iff, normalize?]
  constructor
  · intro h
    split at h
    · next rest htrim =>
      dsimp only at h
      split at h
      · cases h
      · next hgood =>
        rw [not_or, Bool.not_eq_true] at hgood
        have hself := Option.some.inj h
        -- trimming cannot have taken anything, or else the segments would be too few
        have hsub := ofSegments_segments_sublist rest
        rw [hself] at hsub
        have hchars : p.chars = '/' :: rest := by
          apply hsub.antisymm
          rw [← htrim]
          exact Text.trim_sublist p.chars
        exact ⟨rest, hchars, htrim.trans hchars.symm, hgood.1, hgood.2, hself⟩
    · cases h
  · rintro ⟨rest, hchars, htrim, hne, hdots, hself⟩
    have hgood : ¬ (segments rest = [] ∨ (segments rest).any isDots = true) := by
      rw [not_or, hdots]
      exact ⟨hne, Bool.false_ne_true⟩
    rw [htrim, hchars]
    exact (if_neg hgood).trans (congrArg some hself)

/-- A tidy path is in normal form exactly if it has no blank at its end. -/
theorem isNormal_iff_isTidy {p : Path} :
    p.isNormal = true ↔ p.IsTidy ∧ Text.trim p.chars = p.chars := by
  rw [isNormal_iff_parts, isTidy_iff_parts]
  constructor
  · rintro ⟨rest, hchars, htrim, hparts⟩
    exact ⟨⟨rest, hchars, hparts⟩, htrim⟩
  · rintro ⟨⟨rest, hchars, hparts⟩, htrim⟩
    exact ⟨rest, hchars, htrim, hparts⟩

/-- What follows a path in normal form in another one follows any path in normal form. -/
theorem isNormal_child_of_child {p q : Path} {s : String} (hs : s ≠ "") (hp : p.isNormal = true)
    (hq : q.isNormal = true) (h : (p.child s).isNormal = true) : (q.child s).isNormal = true := by
  obtain ⟨htidy, htrim⟩ := isNormal_iff_isTidy.1 h
  have hqtidy := (isNormal_iff_isTidy.1 hq).1
  refine isNormal_iff_isTidy.2
    ⟨isTidy_child_of_child (isNormal_iff_isTidy.1 hp).1 hqtidy htidy, ?_⟩
  obtain ⟨init, d, hinit⟩ : ∃ init d, s.toList = init ++ [d] := by
    have hne : s.toList ≠ [] := by simpa using hs
    exact ⟨_, _, (List.dropLast_append_getLast hne).symm⟩
  have hend : Text.isBlank d = false := by
    have hsplit : (p.child s).chars = (p.chars ++ '/' :: init) ++ [d] := by
      simp [child, hinit]
    rw [hsplit] at htrim
    exact Text.not_isBlank_of_trim htrim
  obtain ⟨qrest, hqchars, -⟩ := isTidy_iff_parts.1 hqtidy
  have hsplit : (q.child s).chars = '/' :: (qrest ++ '/' :: init) ++ [d] := by
    simp [child, hqchars, hinit]
  rw [hsplit]
  exact Text.trim_eq_self (by decide) hend _

/-! ## Normalizing twice -/

/-- Whether a blank stands right before the separators at the end of the trimmed text. -/
def endsInBlank (p : Path) : Bool :=
  ((Text.trim p.chars).reverse.dropWhile (· = '/')).head?.any Text.isBlank

/-- A text that does not end in a separator ends in a segment. -/
theorem exists_segments_concat (cs : List Char) {c : Char} (hc : c ≠ '/') :
    ∃ ss s, segments (cs ++ [c]) = ss ++ [s ++ [c]] := by
  by_cases hsep : '/' ∈ cs
  · obtain ⟨front, back, rfl, hback⟩ := exists_append_of_separator hsep
    have hlast : segments (back ++ [c]) = [back ++ [c]] :=
      segments_of_segment (by simp) (by simp [hback, hc.symm])
    refine ⟨segments front, back, ?_⟩
    rw [List.append_assoc, List.cons_append, segments_append, hlast]
  · exact ⟨[], cs, segments_of_segment (by simp) (by simp [hsep, hc.symm])⟩

/-- Segments end in the last character of the text that is no separator. -/
theorem getLast?_ofSegments_segments (cs : List Char) :
    (ofSegments (segments cs)).chars.getLast? = (cs.reverse.dropWhile (· = '/')).head? := by
  induction cs using List.reverseRecOn with
  | nil => rfl
  | append_singleton cs c ih =>
    rw [List.reverse_append, List.reverse_singleton, List.singleton_append, List.dropWhile_cons]
    by_cases hc : c = '/'
    · have hsegments : segments (cs ++ [c]) = segments cs := by
        rw [hc, segments_append]
        exact List.append_nil _
      rw [hsegments, ih, if_pos (decide_eq_true hc)]
    · obtain ⟨ss, s, hsegments⟩ := exists_segments_concat cs hc
      have hchars : (ofSegments (ss ++ [s ++ [c]])).chars =
          ((ofSegments ss).chars ++ '/' :: s) ++ [c] := by
        simp [ofSegments]
      rw [hsegments, hchars, List.getLast?_concat, if_neg (by simpa using hc), List.head?_cons]

/-- A tidy path is in normal form exactly if it does not end in a blank. -/
theorem IsTidy.isNormal_iff_getLast? {p : Path} (h : p.IsTidy) :
    p.isNormal = true ↔ p.chars.getLast?.any Text.isBlank = false := by
  rw [isNormal_iff_isTidy, and_iff_right h]
  obtain ⟨rest, hchars, hne, -⟩ := isTidy_iff_parts.1 h
  have hrest : rest ≠ [] := by
    rintro rfl
    exact hne rfl
  obtain ⟨init, d, rfl⟩ : ∃ init d, rest = init ++ [d] :=
    ⟨_, _, (List.dropLast_concat_getLast hrest).symm⟩
  rw [hchars, ← List.cons_append, List.getLast?_concat, Option.any_some]
  constructor
  · exact Text.not_isBlank_of_trim
  · intro hd
    exact Text.trim_eq_self (by decide) hd init

/-- The normal form of a path is its own normal form exactly if the path does not end in a blank. -/
theorem isNormal_iff_endsInBlank {p q : Path} (h : p.normalize? = some q) :
    q.isNormal = true ↔ p.endsInBlank = false := by
  rw [(isTidy_of_normalize? h).isNormal_iff_getLast?, endsInBlank]
  unfold normalize? at h
  split at h
  · next rest htrim =>
    dsimp only at h
    split at h
    · cases h
    · obtain rfl := Option.some.inj h
      rw [htrim, ← getLast?_ofSegments_segments, segments_separator]
  · cases h

end Path
end Graft
