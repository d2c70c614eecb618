import Graft.Proofs.Path.Ancestors
import Mathlib.Data.List.Basic

/-!
# Tidy paths

A tidy path can be cut into its segments in one way only, and cutting and joining are inverse to
each other (`isTidy_iff_parts`). Tidiness is inherited both ways along the tree: the parent of a
tidy path is tidy (`IsTidy.parent`), and what lies below a tidy path is tidy wherever else it is
put (`isTidy_child_of_child`).
-/

namespace Graft.Path

variable {p q up : Path}

/-! ## Segments -/

theorem segments_append (cs ds : List Char) :
    segments (cs ++ '/' :: ds) = segments cs ++ segments ds := by
  rw [segments, List.splitOn_append_cons_self, List.filter_append]
  rfl

theorem segments_separator (cs : List Char) : segments ('/' :: cs) = segments cs :=
  segments_append [] cs

theorem segments_of_segment {s : List Char} (hs : s ≠ []) (hsep : '/' ∉ s) : segments s = [s] := by
  rw [segments, List.splitOn_eq_singleton hsep, List.filter_singleton, decide_eq_true hs]
  rfl

theorem ofSegments_append (ss ts : List (List Char)) :
    (ofSegments (ss ++ ts)).chars = (ofSegments ss).chars ++ (ofSegments ts).chars :=
  List.flatMap_append

theorem ofSegments_concat (ss : List (List Char)) (s : List Char) :
    ofSegments (ss ++ [s]) = (ofSegments ss).child (String.ofList s) := by
  rw [child, String.toList_ofList]
  exact congrArg Path.mk ((ofSegments_append ss [s]).trans (by simp [ofSegments]))

/-- What segments are joined to is cut into the same segments again. -/
theorem segments_ofSegments {ss : List (List Char)} (hss : ∀ s ∈ ss, s ≠ [] ∧ '/' ∉ s) :
    segments (ofSegments ss).chars = ss := by
  induction ss with
  | nil => rfl
  | cons s ss ih =>
    obtain ⟨hs, hsep⟩ := hss s List.mem_cons_self
    have hrest := ih fun t ht => hss t (List.mem_cons_of_mem s ht)
    show segments ('/' :: (s ++ (ofSegments ss).chars)) = s :: ss
    rw [segments_separator]
    cases ss with
    | nil =>
      rw [show (ofSegments []).chars = [] from rfl, List.append_nil]
      exact segments_of_segment hs hsep
    | cons t ss =>
      -- the next segment brings the separator that ends this one
      have hnext : (ofSegments (t :: ss)).chars = '/' :: (t ++ (ofSegments ss).chars) := rfl
      rw [hnext, segments_separator] at hrest
      rw [hnext, segments_append, segments_of_segment hs hsep, hrest]
      rfl

theorem flatMap_splitOn (cs : List Char) : (cs.splitOn '/').flatMap ('/' :: ·) = '/' :: cs := by
  have hjoin : ∀ ss : List (List Char), ss ≠ [] →
      ss.flatMap ('/' :: ·) = '/' :: ['/'].intercalate ss := by
    intro ss
    induction ss with
    | nil => exact fun h => absurd rfl h
    | cons s ss ih =>
      intro _
      cases ss with
      | nil => simp [List.intercalate]
      | cons t ss =>
        rw [List.flatMap_cons, ih (List.cons_ne_nil t ss), List.intercalate_cons_cons]
        simp
  rw [hjoin _ (List.splitOn_ne_nil '/' cs), List.intercalate_splitOn]

/-- Segments make up no more than the text that they were cut from. -/
theorem ofSegments_segments_sublist (cs : List Char) :
    (ofSegments (segments cs)).chars.Sublist ('/' :: cs) := by
  have hkept : ∀ ss : List (List Char),
      ((ss.filter (· ≠ [])).flatMap ('/' :: ·)).Sublist (ss.flatMap ('/' :: ·)) := by
    intro ss
    induction ss with
    | nil => exact List.Sublist.refl _
    | cons s ss ih =>
      rw [List.filter_cons]
      split
      · exact ih.append_left _
      · exact ih.trans (List.sublist_append_right _ _)
  rw [← flatMap_splitOn cs]
  exact hkept _

/-! ## Tidiness -/

/-- What a tidy path is made of. -/
theorem isTidy_iff_parts : p.IsTidy ↔
    ∃ rest, p.chars = '/' :: rest ∧ segments rest ≠ [] ∧
      (segments rest).any isDots = false ∧ ofSegments (segments rest) = p := by
  constructor
  · rintro ⟨ss, hne, hss, rfl⟩
    obtain ⟨s, ss, rfl⟩ := List.exists_cons_of_ne_nil hne
    have hcut := segments_ofSegments fun t ht => ⟨(hss t ht).1, (hss t ht).2.1⟩
    have hchars : (ofSegments (s :: ss)).chars = '/' :: (s ++ (ofSegments ss).chars) := rfl
    rw [hchars, segments_separator] at hcut
    refine ⟨_, hchars, ?_⟩
    rw [hcut]
    refine ⟨hne, ?_, rfl⟩
    rw [List.any_eq_false]
    intro t ht
    rw [(hss t ht).2.2]
    exact Bool.false_ne_true
  · rintro ⟨rest, -, hne, hdots, hself⟩
    refine ⟨segments rest, hne, fun s hs => ?_, hself.symm⟩
    obtain ⟨hsplit, hs'⟩ := List.mem_filter.1 hs
    refine ⟨of_decide_eq_true hs', separator_not_mem_of_mem_splitOn hsplit, ?_⟩
    rw [List.any_eq_false] at hdots
    exact Bool.eq_false_iff.2 (hdots s hs)

theorem IsTidy.head (h : p.IsTidy) : p.chars.head? = some '/' := by
  obtain ⟨rest, hchars, -⟩ := isTidy_iff_parts.1 h
  rw [hchars, List.head?_cons]

theorem IsTidy.getLast_ne (h : p.IsTidy) : p.chars.getLast? ≠ some '/' := by
  intro hlast
  obtain ⟨init, hinit⟩ := List.getLast?_eq_some_iff.1 hlast
  exact h.chars_ne_append_separator init hinit

theorem IsTidy.parent (h : p.IsTidy) (hup : p.parent = some up) : up.IsTidy := by
  obtain ⟨ss, hss, hgood, rfl⟩ := h
  obtain ⟨front, s, rfl⟩ : ∃ front s, ss = front ++ [s] :=
    ⟨_, _, (List.dropLast_concat_getLast hss).symm⟩
  have hsep : '/' ∉ (String.ofList s).toList := by
    rw [String.toList_ofList]
    exact (hgood s (by simp)).2.1
  rw [ofSegments_concat] at hup
  cases front with
  | nil =>
    -- a single segment has nothing above it
    rw [Path.parent, above, child, uppers_append _ hsep] at hup
    cases hup
  | cons t front =>
    have hne : (ofSegments (t :: front)).chars ≠ [] := List.cons_ne_nil _ _
    rw [parent_child hne hsep] at hup
    obtain rfl := Option.some.inj hup
    refine ⟨t :: front, List.cons_ne_nil t front, fun r hr => ?_, rfl⟩
    exact hgood r (List.mem_append_left _ hr)

theorem IsTidy.isWithin_parent (h : p.IsTidy) (hup : p.parent = some up) :
    p.isWithin up = true := by
  obtain ⟨-, s, -, rfl⟩ := parent_eq_some_iff.1 hup
  refine isWithin_iff.2 (Or.inr ⟨s, ?_, rfl⟩)
  rintro rfl
  exact h.chars_ne_append_separator _ rfl

/-- A tidy path lies within everything above it. -/
theorem IsTidy.isWithin_above (h : p.IsTidy) (hup : up ∈ p.above) : p.isWithin up = true :=
  isWithin_iff_covers.2 ⟨Or.inr (mem_above_iff.1 hup).2, h.chars_ne_append_separator _⟩

/-- What follows a tidy path in another one follows any tidy path. -/
theorem isTidy_child_of_child {s : String} (hp : p.IsTidy) (hq : q.IsTidy)
    (h : (p.child s).IsTidy) : (q.child s).IsTidy := by
  obtain ⟨prest, hpchars, -, -, hpself⟩ := isTidy_iff_parts.1 hp
  obtain ⟨qrest, hqchars, hqne, hqdots, hqself⟩ := isTidy_iff_parts.1 hq
  obtain ⟨rest, hchars, -, hdots, hself⟩ := isTidy_iff_parts.1 h
  have hrest : rest = prest ++ '/' :: s.toList := by
    rw [child, hpchars, List.cons_append] at hchars
    exact (List.cons.inj hchars).2.symm
  rw [hrest, segments_append] at hdots hself
  rw [List.any_append, Bool.or_eq_false_iff] at hdots
  have hsegments : (ofSegments (segments s.toList)).chars = '/' :: s.toList := by
    have hsame := congrArg Path.chars hself
    rw [ofSegments_append, hpself] at hsame
    exact List.append_cancel_left hsame
  refine isTidy_iff_parts.2 ⟨qrest ++ '/' :: s.toList, ?_, ?_, ?_, ?_⟩
  · rw [child, hqchars, List.cons_append]
  · rw [segments_append]
    exact List.append_ne_nil_of_left_ne_nil hqne _
  · rw [segments_append, List.any_append, hqdots, hdots.2]
    rfl
  · have hsame : (ofSegments (segments (qrest ++ '/' :: s.toList))).chars = (q.child s).chars := by
      rw [segments_append, ofSegments_append, hqself, hsegments]
      rfl
    exact congrArg Path.mk hsame

end Graft.Path
