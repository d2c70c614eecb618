import Graft.Path.Basic
import Graft.Text.Blank

/-!
# Normal form of paths

The normal form of an absolute path has one separator before each segment, none at the end, and
no blank at either end of the text it was made from. Relative paths, the bare root and paths with
a `.` or `..` segment have none.

Segments are read after the ends are trimmed, so a blank next to a separator belongs to a segment
and stays.
-/

namespace Graft.Path

def segments (cs : List Char) : List (List Char) := (cs.splitOn '/').filter (· ≠ [])

def ofSegments (ss : List (List Char)) : Path := ⟨ss.flatMap ('/' :: ·)⟩

/-- Segments that stand for a place relative to another one. -/
def isDots (s : List Char) : Bool := s == ['.'] || s == ['.', '.']

def normalize? (p : Path) : Option Path :=
  match Text.trim p.chars with
  | '/' :: rest =>
    let ss := segments rest
    if ss = [] ∨ ss.any isDots then none else some (ofSegments ss)
  | _ => none

def isNormal (p : Path) : Bool := p.normalize? == some p

/-! ## What a normal form looks like -/

/-- One or more proper segments, each after a separator. -/
def IsTidy (p : Path) : Prop :=
  ∃ ss, ss ≠ [] ∧ (∀ s ∈ ss, s ≠ [] ∧ '/' ∉ s ∧ isDots s = false) ∧ p = ofSegments ss

theorem separator_not_mem_of_mem_splitOn {cs s : List Char} (h : s ∈ cs.splitOn '/') : '/' ∉ s := by
  induction cs generalizing s with
  | nil => simp_all
  | cons c cs ih =>
    rw [List.splitOn_cons_eq_if_modifyHead] at h
    split at h
    · rcases List.mem_cons.1 h with rfl | h
      · simp
      · exact ih h
    · next hc =>
      obtain ⟨t, ts, hs⟩ := List.exists_cons_of_ne_nil (List.splitOn_ne_nil '/' cs)
      rw [hs, List.modifyHead_cons] at h
      rcases List.mem_cons.1 h with rfl | h
      · have := ih (hs ▸ List.mem_cons_self)
        intro hm
        rcases List.mem_cons.1 hm with hm | hm
        · exact hc (by simp [← hm])
        · exact this hm
      · exact ih (hs ▸ List.mem_cons_of_mem _ h)

theorem isTidy_of_normalize? {p q : Path} (h : p.normalize? = some q) : q.IsTidy := by
  unfold normalize? at h
  split at h
  · next rest _ =>
    dsimp only at h
    split at h
    · simp at h
    · next hne =>
      obtain rfl := Option.some.inj h
      refine ⟨segments rest, fun hs => hne (.inl hs), fun s hs => ?_, rfl⟩
      have hm := List.mem_filter.1 hs
      refine ⟨by simpa using hm.2, separator_not_mem_of_mem_splitOn hm.1, ?_⟩
      exact Bool.eq_false_iff.2 fun hd => hne (.inr (List.any_eq_true.2 ⟨s, hs, hd⟩))
  · simp at h

end Graft.Path
