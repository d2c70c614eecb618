import Graft.Proofs.Catalog.Alike
import Mathlib.Data.List.Perm.Basic

/-!
# Registrations by several callers

Several callers register declarations, each in an order of its own. Calls do not overlap, but it is
not known whose call comes next. It does not matter either, as long as the callers agree: of two
declarations for one root both are flawed, or both declare the same mapping
(`Declaration.Agrees`). Then the first of equal registrations at a root does it all, whoever makes
it, and registrations at two roots do not meet.

Two registrations that agree may change places (`alike_register_comm`), and so may those of a whole
run (`alike_play_register`). An interleaving is one of the many ways to rearrange the calls of the
callers (`Interleaving.perm`).
-/

namespace Graft

/-! ## Interleavings -/

/-- An order of all calls in which each caller's calls come in the caller's order. -/
inductive Interleaving {α : Type} : List (List α) → List α → Prop where
  | done {lists : List (List α)} (h : ∀ l ∈ lists, l = []) : Interleaving lists []
  /-- One of the callers makes its next call. -/
  | next (before : List (List α)) {call : α} {rest : List α} {behind : List (List α)}
    {order : List α} (h : Interleaving (before ++ rest :: behind) order) :
    Interleaving (before ++ (call :: rest) :: behind) (call :: order)

theorem Interleaving.perm {α : Type} {lists : List (List α)} {order : List α}
    (h : Interleaving lists order) : order.Perm lists.flatten := by
  induction h with
  | done h => rw [List.flatten_eq_nil_iff.2 h]
  | next before h ih =>
    rw [List.flatten_append, List.flatten_cons] at ih ⊢
    exact (ih.cons _).trans List.perm_middle.symm

/-! ## Declarations that agree -/

namespace Declaration

variable {d d' : Declaration}

/-- If the declarations touch the same root then both are flawed or both declare the same mapping.
Those that touch none are flawed anyway. -/
def Agrees (d d' : Declaration) : Prop :=
  d.target? = d'.target? → d.mapping.toOption = d'.mapping.toOption

instance (d d' : Declaration) : Decidable (d.Agrees d') :=
  inferInstanceAs (Decidable (_ → _))

theorem Agrees.symm (h : d.Agrees d') : d'.Agrees d := fun htarget => (h htarget.symm).symm

/-- What the first registration has left at a root, an equal one leaves there. -/
theorem leaves_leaves (h : d.mapping.toOption = d'.mapping.toOption) (isSealed : Bool)
    (old : Option Mapping) :
    d'.leaves isSealed (d.leaves isSealed old) = d.leaves isSealed old := by
  rw [leaves_eq_toOption, leaves_eq_toOption, h]
  cases d'.mapping.toOption with
  | none => rfl
  | some m =>
    cases isSealed with
    | false => rfl
    | true => rfl

end Declaration

namespace Catalog

open Board

variable {c c' : Catalog} {d d' : Declaration} {order order' : List Declaration}

/-! ## Two registrations -/

theorem tells_register_register (h : c.Consistent) (hagree : d.Agrees d') :
    Tells c ((c.register d).1.register d').1 := by
  have hfirst := tells_register h d
  apply hfirst.trans (tells_register hfirst.consistent d')
  intro root
  rw [lookup_register_target hfirst.consistent, lookup_register_target h, isSealed_register]
  by_cases hd : d.target? = some root
  · right
    rw [if_pos hd]
    split
    · next hd' => exact Declaration.leaves_leaves (hagree (hd.trans hd'.symm)) _ _
    · rfl
  · left
    exact if_neg hd

theorem lookup_register_register (h : c.Consistent) (hagree : d.Agrees d') (q : Path) :
    ((c.register d').1.register d).1.lookup q = ((c.register d).1.register d').1.lookup q := by
  have hfirst := consistent_register h d
  have hfirst' := consistent_register h d'
  simp only [lookup_register_target hfirst, lookup_register_target hfirst',
    lookup_register_target h, isSealed_register]
  by_cases hd : d.target? = some q
  · by_cases hd' : d'.target? = some q
    · have heq := hagree (hd.trans hd'.symm)
      simp only [if_pos hd, if_pos hd', Declaration.leaves_eq_toOption, heq]
    · simp only [if_pos hd, if_neg hd']
  · simp only [if_neg hd]

/-- The outcomes change places, unless both declare one mapping. Then they stay in place. -/
theorem perm_outcomes (h : c.Consistent) (hagree : d.Agrees d') :
    [(c.register d').2, ((c.register d').1.register d).2].Perm
      [(c.register d).2, ((c.register d).1.register d').2] := by
  by_cases htarget : d.target? = d'.target?
  · have heq := hagree htarget
    cases hd : d.mapping with
    | ok m =>
      have hd' : d'.mapping = .ok m := by
        rw [hd] at heq
        exact Declaration.toOption_mapping_eq_some_iff.1 heq.symm
      simp only [register, hd, hd']
      exact .refl _
    | error flaw =>
      cases hd' : d'.mapping with
      | ok m =>
        rw [hd, hd'] at heq
        cases heq
      | error flaw' =>
        simp only [register, hd, hd']
        exact .swap _ _ _
  · -- neither finds anything else at its root than it would have found before the other
    have hother : ∀ {d d' : Declaration}, d.target? ≠ d'.target? →
        ((c.register d).1.register d').2 = (c.register d').2 := by
      intro d d' hne
      apply register_snd_congr h (consistent_register h d) (isSealed_register c d)
      intro root hroot
      rw [lookup_register_target h, if_neg]
      rw [← hroot]
      exact hne
    rw [hother htarget, hother (Ne.symm htarget)]
    exact .swap _ _ _

/-- Registrations that agree come to the same in either order. -/
theorem alike_register_comm (h : c.Consistent) (hagree : d.Agrees d') :
    Alike ((c.register d).1.register d').1 ((c.register d').1.register d).1 :=
  (Alike.refl h).of_tells (tells_register_register h hagree)
    (tells_register_register h hagree.symm) (lookup_register_register h hagree)

/-! ## A run of registrations -/

/-- The same registrations leave alike what was alike. -/
theorem alike_play_register_same (h : Alike c c') (order : List Declaration) :
    (play register c order).2 = (play register c' order).2 ∧
      Alike (play register c order).1 (play register c' order).1 := by
  refine play_simulation (fun c c' d h => ?_) h order
  obtain ⟨halike, houtcome⟩ := h.register d
  exact ⟨houtcome.symm, halike⟩

/-- Registrations that agree come to the same in any order. -/
theorem alike_play_register (horder : order.Perm order') (h : c.Consistent)
    (hagree : ∀ d ∈ order, ∀ d' ∈ order, d.Agrees d') :
    Alike (play register c order).1 (play register c order').1 ∧
      (play register c order').2.Perm (play register c order).2 := by
  induction horder generalizing c with
  | nil => exact ⟨Alike.refl h, .refl _⟩
  | cons d horder ih =>
    obtain ⟨halike, hperm⟩ := ih (consistent_register h d) fun d hd d' hd' =>
      hagree d (List.mem_cons_of_mem _ hd) d' (List.mem_cons_of_mem _ hd')
    exact ⟨halike, hperm.cons _⟩
  | swap d d' rest =>
    have hpair := hagree d' List.mem_cons_self d (List.mem_cons_of_mem _ List.mem_cons_self)
    obtain ⟨hsame, halike⟩ := alike_play_register_same (alike_register_comm h hpair) rest
    simp only [play_cons, hsame]
    exact ⟨halike, (perm_outcomes h hpair).append_right _⟩
  | trans horder _ ih ih' =>
    obtain ⟨halike, hperm⟩ := ih h hagree
    obtain ⟨halike', hperm'⟩ := ih' h fun d hd d' hd' =>
      hagree d (horder.mem_iff.2 hd) d' (horder.mem_iff.2 hd')
    exact ⟨halike.trans halike', hperm'.trans hperm⟩

/-! ## Callers -/

def tally (outcomes : List Outcome) : Report := outcomes.foldl Report.count .blank

instance : RightCommutative Report.count where
  right_comm report outcome outcome' := by
    cases outcome <;> cases outcome' <;> rfl

/-- Let several callers register declarations that agree, with the catalog open or sealed. However
their calls are interleaved, the same mappings are active in the end, as many registrations were
applied, skipped and rejected and the board was told the same of each root as if the callers had
come one after another. -/
theorem interleaving_irrelevant (history : List Op) (lists : List (List Declaration))
    (hagree : ∀ d ∈ lists.flatten, ∀ d' ∈ lists.flatten, d.Agrees d')
    (horder : Interleaving lists order) :
    let (inTurn, outcomes) := play register (after history) lists.flatten
    let (mixed, outcomes') := play register (after history) order
    mixed.mappings = inTurn.mappings ∧ (∀ root, mixed.lookup root = inTurn.lookup root) ∧
    outcomes'.Perm outcomes ∧ tally outcomes' = tally outcomes ∧
    ∀ root, noticesAt mixed.board.calls root = noticesAt inTurn.board.calls root := by
  obtain ⟨halike, hperm⟩ := alike_play_register horder.perm.symm (consistent_after history) hagree
  exact ⟨halike.mappings_eq, halike.lookup_eq, hperm, hperm.foldl_eq _, halike.noticesAt_eq⟩

/-- Both callers register a mapping at `/a`. The second one overtakes the first one, whose other
declaration is flawed and withdraws what is active at `/b`. -/
theorem interleaving_irrelevant_overtaken :
    let history : List Op := [.register ⟨.ofString "/b", some "/s", false, false⟩]
    let a : Declaration := ⟨.ofString "/a", some "/t", false, true⟩
    let b : Declaration := ⟨.ofString "/b", none, false, false⟩
    let c : Declaration := ⟨.ofString "/c/def", some "/u", true, false⟩
    let inTurn := play register (after history) [a, b, c, a]
    let mixed := play register (after history) [c, a, a, b]
    mixed.2 = [.applied, .applied, .skipped, .rejected (.blankSource (.ofString "/b"))] ∧
    mixed.2 ≠ inTurn.2 ∧ mixed.1.board.calls ≠ inTurn.1.board.calls ∧ mixed.1.size = 2 ∧
    mixed.1.mappings = inTurn.1.mappings ∧ tally mixed.2 = tally inTurn.2 := by
  intro history a b c inTurn mixed
  have horder : Interleaving [[a, b], [c, a]] [c, a, a, b] :=
    .next [[a, b]] (.next [[a, b]] (.next [] (.next [] (.done (by decide)))))
  obtain ⟨hmappings, -, -, htally, -⟩ := interleaving_irrelevant history _ (by decide) horder
  exact ⟨by decide, by decide, by decide, by decide, hmappings, htally⟩

end Catalog

end Graft
