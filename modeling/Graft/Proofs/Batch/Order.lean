import Graft.Proofs.Batch.Tracking
import Graft.Proofs.Catalog.Alike

/-!
# The order of the actions

The actions of a batch may be carried out in any order as long as no two of them aim at one root.
Handles are given out in another order then, and the calls about different roots come in another
order. Apart from that the catalogs look alike (`Alike`).

Two actions with different aims lead to catalogs that look alike, whichever comes first
(`alike_act_comm`), and what is done to catalogs that look alike leaves them so. The same holds then
of all actions in two orders (`alike_foldl_act`) and of the pass that may follow
(`carryOut_order_irrelevant`).
-/

namespace Graft

/-- The root at which an action does something, if there is one. -/
def Repository.aim? (r : Repository) : Path × Action → Option Path
  | (p, .unregister) => some p
  | (p, .register) => if r.tree.contains p then (r.declaration p).target? else none

namespace Catalog

open Board

variable {r : Repository} {order order' : List (Path × Action)}

/-! ## Actions, one by one -/

/-- Carries out one action where reads succeed. -/
def act (r : Repository) (s : Catalog × Batch.Outcome) : Path × Action → Catalog × Batch.Outcome
  | (p, .unregister) =>
    ((s.1.unregister p).1,
      { s.2 with unregistered := s.2.unregistered + (s.1.unregister p).2.toNat })
  | (p, .register) =>
    if r.tree.contains p then
      ((s.1.register (r.declaration p)).1, { s.2 with registered := s.2.registered + 1 })
    else s

theorem perform_eq (hr : r.failing = false) (order : List (Path × Action)) (c : Catalog)
    (out : Batch.Outcome) : c.perform r order out =
      ((order.foldl (act r) (c, out)).1, .ok (order.foldl (act r) (c, out)).2) := by
  induction order generalizing c out with
  | nil => rfl
  | cons x order ih =>
    obtain ⟨p, action⟩ := x
    cases action with
    | unregister => exact ih _ _
    | register =>
      simp only [perform, has_eq hr, List.foldl_cons, act]
      cases r.tree.contains p with
      | false => exact ih c out
      | true => exact ih _ _

section Act

variable {s s' : Catalog × Batch.Outcome} {x y : Path × Action}

/-- What an action leaves at its aim, where `old` was before. -/
def left (r : Repository) (isSealed : Bool) (old : Option Mapping) : Path × Action → Option Mapping
  | (_, .unregister) => none
  | (p, .register) => (r.declaration p).leaves isSealed old

theorem lookup_act (h : s.1.Consistent) (x : Path × Action) (q : Path) :
    (act r s x).1.lookup q =
      if r.aim? x = some q then left r s.1.isSealed (s.1.lookup q) x else s.1.lookup q := by
  obtain ⟨p, action⟩ := x
  cases action with
  | unregister =>
    simp only [act, Repository.aim?, left, lookup_unregister h, Option.some.injEq, eq_comm]
  | register =>
    simp only [act, Repository.aim?]
    split
    · exact lookup_register_target h (r.declaration p) q
    · rfl

theorem lookup_act_of_ne (h : s.1.Consistent) {q : Path} (hq : r.aim? x ≠ some q) :
    (act r s x).1.lookup q = s.1.lookup q := by
  rw [lookup_act h, if_neg hq]

theorem tells_act (h : s.1.Consistent) (r : Repository) (x : Path × Action) :
    Tells s.1 (act r s x).1 := by
  obtain ⟨p, action⟩ := x
  cases action with
  | unregister => exact tells_unregister h p
  | register =>
    unfold act
    dsimp only
    split
    · exact tells_register h (r.declaration p)
    · exact Tells.refl h

/-- What an action adds to the outcome. -/
theorem act_snd (h : s.1.Consistent) (x : Path × Action) : (act r s x).2 =
    { s.2 with
      registered := s.2.registered + (x.2 = .register ∧ r.tree.contains x.1 : Bool).toNat
      unregistered := s.2.unregistered + (x.2 = .unregister ∧ s.1.contains x.1 : Bool).toNat } := by
  obtain ⟨p, action⟩ := x
  cases action with
  | unregister => simp [act, unregister_snd h]
  | register =>
    cases hp : r.tree.contains p with
    | false => simp [act, hp]
    | true => simp [act, hp]

/-- Actions on catalogs that look alike leave them so. -/
theorem alike_act (h : Alike s.1 s'.1) (hout : s'.2 = s.2) (x : Path × Action) :
    Alike (act r s x).1 (act r s' x).1 ∧ (act r s' x).2 = (act r s x).2 := by
  constructor
  · apply h.of_tells (tells_act h.consistent r x) (tells_act h.consistent' r x)
    intro q
    rw [lookup_act h.consistent', lookup_act h.consistent, h.lookup_eq, h.isSealed_eq]
  · rw [act_snd h.consistent', act_snd h.consistent, hout, h.contains_eq]

/-! ## Two actions, and all of them -/

/-- There is no root at which both actions do something. -/
def Apart (r : Repository) (x y : Path × Action) : Prop :=
  ∀ q, r.aim? x = some q → r.aim? y ≠ some q

theorem Apart.symm (h : Apart r x y) : Apart r y x := fun q hy hx => h q hx hy

theorem nodup_aims_iff : (order.filterMap r.aim?).Nodup ↔ order.Pairwise (Apart r) := by
  rw [List.Nodup, List.pairwise_filterMap]
  constructor
  · intro h
    refine h.imp fun hxy q hx hy => ?_
    exact hxy q hx q hy rfl
  · intro h
    refine h.imp ?_
    rintro x y hxy q hx _ hy rfl
    exact hxy q hx hy

/-- A root at which no action aims stays as it is. -/
theorem lookup_foldl_act (h : s.1.Consistent) {q : Path} (hq : ∀ x ∈ order, r.aim? x ≠ some q) :
    (order.foldl (act r) s).1.lookup q = s.1.lookup q := by
  induction order generalizing s with
  | nil => rfl
  | cons x order ih =>
    have hrest := ih (tells_act h r x).consistent fun y hy => hq y (List.mem_cons_of_mem x hy)
    exact hrest.trans (lookup_act_of_ne h (hq x List.mem_cons_self))

/-- Actions that are apart change no root twice. -/
theorem tells_foldl_act (h : s.1.Consistent) (hapart : order.Pairwise (Apart r)) :
    Tells s.1 (order.foldl (act r) s).1 := by
  induction order generalizing s with
  | nil => exact Tells.refl h
  | cons x order ih =>
    obtain ⟨hx, hrest⟩ := List.pairwise_cons.1 hapart
    have hfirst := tells_act h r x
    apply hfirst.trans (ih hfirst.consistent hrest)
    intro q
    by_cases hq : r.aim? x = some q
    · right
      exact lookup_foldl_act hfirst.consistent fun y hy => hx y hy q hq
    · left
      exact lookup_act_of_ne h hq

theorem alike_act_comm (h : s.1.Consistent) (hapart : Apart r x y) :
    Alike (act r (act r s x) y).1 (act r (act r s y) x).1 ∧
      (act r (act r s y) x).2 = (act r (act r s x) y).2 := by
  have hx := tells_act h r x
  have hy := tells_act h r y
  have hxy : Tells s.1 ([x, y].foldl (act r) s).1 :=
    tells_foldl_act h (List.pairwise_pair.2 hapart)
  have hyx : Tells s.1 ([y, x].foldl (act r) s).1 :=
    tells_foldl_act h (List.pairwise_pair.2 hapart.symm)
  constructor
  · apply (Alike.refl h).of_tells hxy hyx
    intro q
    show (act r (act r s y) x).1.lookup q = (act r (act r s x) y).1.lookup q
    rw [lookup_act hy.consistent, lookup_act hx.consistent, hx.isSealed_eq, hy.isSealed_eq]
    by_cases hq : r.aim? x = some q
    · have hq' := hapart q hq
      rw [if_pos hq, if_neg hq', lookup_act_of_ne h hq', lookup_act h, if_pos hq]
    · rw [if_neg hq, lookup_act_of_ne h hq, lookup_act h]
  · -- what one withdraws is not what the other one finds
    have hfinds : ∀ {x y : Path × Action}, Apart r x y →
        (y.2 = .unregister ∧ (act r s x).1.contains y.1 : Bool) =
          (y.2 = .unregister ∧ s.1.contains y.1 : Bool) := by
      rintro x ⟨q, action⟩ hxy
      rw [decide_eq_decide]
      apply and_congr_right
      rintro rfl
      have hlook := lookup_act_of_ne h fun hq => hxy q hq rfl
      rw [contains, contains, Table.contains, Table.contains, ← lookup, ← lookup, hlook]
    rw [act_snd hx.consistent, act_snd hy.consistent, act_snd h, act_snd h, hfinds hapart,
      hfinds hapart.symm]
    simp only [Nat.add_right_comm]

theorem alike_foldl_act_same (h : Alike s.1 s'.1) (hout : s'.2 = s.2)
    (order : List (Path × Action)) :
    Alike (order.foldl (act r) s).1 (order.foldl (act r) s').1 ∧
      (order.foldl (act r) s').2 = (order.foldl (act r) s).2 := by
  induction order generalizing s s' with
  | nil => exact ⟨h, hout⟩
  | cons x order ih =>
    obtain ⟨halike, hnext⟩ := alike_act h hout x
    exact ih halike hnext

/-- Actions that are apart come to the same in any order. -/
theorem alike_foldl_act (horder : order.Perm order') (hapart : order.Pairwise (Apart r))
    (h : s.1.Consistent) : Alike (order.foldl (act r) s).1 (order'.foldl (act r) s).1 ∧
      (order'.foldl (act r) s).2 = (order.foldl (act r) s).2 := by
  induction horder generalizing s with
  | nil => exact ⟨Alike.refl h, rfl⟩
  | cons x horder ih => exact ih (List.pairwise_cons.1 hapart).2 (tells_act h r x).consistent
  | swap x y rest =>
    have hyx := (List.pairwise_cons.1 hapart).1 x List.mem_cons_self
    obtain ⟨halike, hout⟩ := alike_act_comm h hyx
    exact alike_foldl_act_same halike hout rest
  | trans horder horder' ih ih' =>
    obtain ⟨halike, hout⟩ := ih hapart h
    obtain ⟨halike', hout'⟩ := ih' (hapart.perm horder Apart.symm) h
    exact ⟨halike.trans halike', hout'.trans hout⟩

end Act

/-! ## Whole batches -/

/-- Follow a batch in which no two actions aim at one root, with the catalog open or sealed. In
whatever order its actions are carried out, the same mappings are active in the end, the outcome or
the error is the same and the board is told the same of each root. The actions themselves tell of
each root at most that one mapping comes down and then that one goes up. -/
theorem carryOut_order_irrelevant (history : List Op) (hr : r.failing = false)
    (queries : List String) (batch : List Change)
    (hapart : ((Plan.of (after history) batch).actions.entries.filterMap r.aim?).Nodup)
    (horder : order.Perm (Plan.of (after history) batch).actions.entries)
    (horder' : order'.Perm (Plan.of (after history) batch).actions.entries) :
    let plan := Plan.of (after history) batch
    let done := (after history).carryOut r queries plan order
    let done' := (after history).carryOut r queries plan order'
    done'.1.mappings = done.1.mappings ∧ done'.2 = done.2 ∧
    (∀ root, noticesAt done'.1.board.calls root = noticesAt done.1.board.calls root) ∧
    ∃ calls, ((after history).perform r order .blank).1.board.calls =
        (after history).board.calls ++ calls ∧
      ∀ root, (noticesAt calls root).Sublist [.down, .up] := by
  intro plan done done'
  have h : (after history, Batch.Outcome.blank).1.Consistent := consistent_after history
  have hpairs : order.Pairwise (Apart r) :=
    nodup_aims_iff.1 ((horder.filterMap _).nodup_iff.2 hapart)
  obtain ⟨halike, hout⟩ := alike_foldl_act (horder.trans horder'.symm) hpairs h
  have hdone : Alike done.1 done'.1 ∧ done'.2 = done.2 := by
    simp only [done, done', carryOut, perform_eq hr, hout]
    split
    · obtain ⟨hpass, hreport⟩ := halike.pass r queries fun _ => false
      exact ⟨hpass, congrArg (Except.map _) hreport⟩
    · exact ⟨halike, rfl⟩
  refine ⟨hdone.1.mappings_eq, hdone.2, hdone.1.noticesAt_eq, ?_⟩
  obtain ⟨calls, hcalls, htold⟩ := (tells_foldl_act h hpairs).told
  refine ⟨calls, ?_, ?_⟩
  · rw [perform_eq hr]
    exact hcalls
  · intro root
    rw [htold]
    exact turnover_sublist _ _

/-- One mapping comes down and two go up, and a pass follows. The other way round the two get each
other's handles. -/
theorem carryOut_order_irrelevant_reversed :
    let history : List Op := [.register ⟨.ofString "/a", some "/s", false, false⟩]
    let edits := [Edit.declare (.ofString "/b") "/t" false true,
      .declare (.ofString "/c/def") "/u" true false]
    let r := (Repository.empty.transact edits).1
    let batch := ⟨.nodeRemoved, .ofString "/a"⟩ :: (Repository.empty.tree.transact edits).changes
    let plan := Plan.of (after history) batch
    let done := (after history).carryOut r ["marker|superimpose"] plan plan.actions.entries
    let done' := (after history).carryOut r ["marker|superimpose"] plan plan.actions.entries.reverse
    plan.needsPass = true ∧ done.1.board.calls ≠ done'.1.board.calls ∧ done.1.size = 2 ∧
      done'.1.mappings = done.1.mappings ∧ done'.2 = done.2 := by
  intro history edits r batch plan done done'
  obtain ⟨hmappings, hout, -⟩ := carryOut_order_irrelevant history (r := r) rfl
    ["marker|superimpose"] batch (by decide) (.refl plan.actions.entries) (List.reverse_perm _)
  exact ⟨by decide, by decide, by decide, hmappings, hout⟩

end Catalog

end Graft
