import Graft.Proofs.Catalog.History
import Graft.Repository.Basic
import Mathlib.Data.List.Nodup

/-!
# What subscribers are told

A history of transactions, subscriptions and their ends, in any order. A subscription has the number
of those made before it, so no number comes twice, and which subscriptions are live can be read off
the history alone (`Live`). The repository keeps exactly these, in the order in which they were made
(`Feeds`).

Over a whole history a subscriber is told the part of each transaction that lies within its scope,
from when it subscribes until it is unsubscribed, in one batch or, if there is no such part, in none
(`feed_tells_each_its_part`).
-/

namespace Graft.Repository

inductive Op where
  | transact (edits : List Edit)
  | subscribe (path : Path)
  | unsubscribe (id : Nat)

inductive Reply where
  | told (deliveries : List Delivery)
  | subscribed (id : Nat)
  | refused (error : Error)
  | nothing
deriving DecidableEq

def step (r : Repository) : Op → Repository × Reply
  | .transact edits => let (r, deliveries) := r.transact edits; (r, .told deliveries)
  | .subscribe path =>
    match r.subscribe path with
    | .ok (r, id) => (r, .subscribed id)
    | .error e => (r, .refused e)
  | .unsubscribe id => (r.unsubscribe id, .nothing)

def after (ops : List Op) : Repository := (play step empty ops).1

def replies (ops : List Op) : List Reply := (play step empty ops).2

/-! ## Histories alone -/

def Op.opens : Op → Bool
  | .subscribe path => path.normalize?.isSome
  | .transact _ | .unsubscribe _ => false

def Op.ends (id : Nat) : Op → Bool
  | .unsubscribe i => i == id
  | .transact _ | .subscribe _ => false

def opened (ops : List Op) : Nat := ops.countP Op.opens

/-- One of the operations makes the subscription `s`, and none of those behind it ends it. -/
def Live (ops : List Op) (s : Subscription) : Prop :=
  ∃ before path later, ops = before ++ .subscribe path :: later ∧
    path.normalize? = some s.scope ∧ opened before = s.id ∧ ∀ op ∈ later, op.ends s.id = false

/-- The changes of each transaction, when the first operation finds the tree `t`. -/
def reports : Tree → List Op → List (List Change)
  | _, [] => []
  | t, .transact edits :: ops => (t.transact edits).changes :: reports (t.transact edits).tree ops
  | t, .subscribe _ :: ops => reports t ops
  | t, .unsubscribe _ :: ops => reports t ops

/-- The batches of a reply that go to the subscription with the given number. -/
def Reply.batches (id : Nat) : Reply → List (List Change)
  | .told deliveries => (deliveries.filter (·.subscription = id)).map (·.batch)
  | .subscribed _ | .refused _ | .nothing => []

def Reply.id? : Reply → Option Nat
  | .subscribed id => some id
  | .told _ | .refused _ | .nothing => none

def batchesTo (id : Nat) (replies : List Reply) : List (List Change) :=
  replies.flatMap (·.batches id)

variable {r : Repository} {ops : List Op} {op : Op} {s : Subscription} {id : Nat}

theorem opened_append (before later : List Op) :
    opened (before ++ later) = opened before + opened later :=
  List.countP_append

theorem opened_subscribe {path scope : Path} (h : path.normalize? = some scope) (ops : List Op) :
    opened (.subscribe path :: ops) = opened ops + 1 := by
  apply List.countP_cons_of_pos
  rw [Op.opens, h]
  rfl

theorem opened_subscribe_refused {path : Path} (h : path.normalize? = none) (ops : List Op) :
    opened (.subscribe path :: ops) = opened ops := by
  apply List.countP_cons_of_neg
  rw [Op.opens, h]
  exact Bool.false_ne_true

theorem Live.id_lt (h : Live ops s) : s.id < opened ops := by
  obtain ⟨before, path, later, rfl, hpath, hid, -⟩ := h
  rw [opened_append, opened_subscribe hpath]
  omega

/-- The last operation ends a subscription, makes one or does neither. -/
theorem live_concat : Live (ops ++ [op]) s ↔ (Live ops s ∧ op.ends s.id = false) ∨
    ∃ path, op = .subscribe path ∧ path.normalize? = some s.scope ∧ opened ops = s.id := by
  constructor
  · rintro ⟨before, path, later, hsplit, hpath, hid, hlater⟩
    rcases List.eq_nil_or_concat later with rfl | ⟨later, last, rfl⟩
    · obtain ⟨rfl, hop⟩ := List.append_inj' hsplit rfl
      exact Or.inr ⟨path, List.singleton_inj.1 hop, hpath, hid⟩
    · rw [List.concat_eq_append, ← List.cons_append, ← List.append_assoc] at hsplit
      obtain ⟨rfl, hop⟩ := List.append_inj' hsplit rfl
      obtain rfl := List.singleton_inj.1 hop
      rw [List.concat_eq_append, List.forall_mem_append] at hlater
      exact Or.inl ⟨⟨before, path, later, rfl, hpath, hid, hlater.1⟩,
        hlater.2 _ (List.mem_singleton_self _)⟩
  · rintro (⟨⟨before, path, later, rfl, hpath, hid, hlater⟩, hop⟩ | ⟨path, rfl, hpath, hid⟩)
    · refine ⟨before, path, later ++ [op], by simp, hpath, hid, ?_⟩
      rw [List.forall_mem_append]
      exact ⟨hlater, fun x hx => List.mem_singleton.1 hx ▸ hop⟩
    · exact ⟨ops, path, [], rfl, hpath, hid, fun _ h => absurd h List.not_mem_nil⟩

/-! ## What the repository keeps -/

/-- The repository has counted the subscriptions of a history and keeps those that are live, in the
order in which they were made. -/
structure Feeds (ops : List Op) (r : Repository) : Prop where
  issued : r.issued = opened ops
  sorted : r.subscriptions.Pairwise (·.id < ·.id)
  live : ∀ s, s ∈ r.subscriptions ↔ Live ops s

theorem subscribe_eq {path scope : Path} (h : path.normalize? = some scope) (r : Repository) :
    r.step (.subscribe path) = ({ r with
      subscriptions := r.subscriptions ++ [⟨r.issued, scope⟩]
      issued := r.issued + 1 }, .subscribed r.issued) := by
  rw [step, subscribe, h]

theorem subscribe_refused {path : Path} (h : path.normalize? = none) (r : Repository) :
    r.step (.subscribe path) = (r, .refused (.notAbsolute path)) := by
  rw [step, subscribe, h]

theorem step_issued (r : Repository) (op : Op) : (r.step op).1.issued = r.issued + opened [op] := by
  cases op with
  | transact edits => rfl
  | subscribe path =>
    cases hpath : path.normalize? with
    | none => rw [subscribe_refused hpath, opened_subscribe_refused hpath]; rfl
    | some scope => rw [subscribe_eq hpath, opened_subscribe hpath]; rfl
  | unsubscribe id => rfl

/-- An operation can end subscriptions or bring one in, which takes the next number. -/
theorem mem_step_iff : s ∈ (r.step op).1.subscriptions ↔
    (s ∈ r.subscriptions ∧ op.ends s.id = false) ∨
      ∃ path, op = .subscribe path ∧ path.normalize? = some s.scope ∧ r.issued = s.id := by
  cases op with
  | transact edits => simp [step, transact, Op.ends]
  | subscribe path =>
    cases hpath : path.normalize? with
    | none =>
      rw [subscribe_refused hpath]
      simp [Op.ends, hpath]
    | some scope =>
      rw [subscribe_eq hpath]
      obtain ⟨id, scope'⟩ := s
      simp [Op.ends, hpath, eq_comm, and_comm]
  | unsubscribe id => simp [step, unsubscribe, Op.ends, ne_comm]

namespace Feeds

theorem empty : Feeds [] .empty where
  issued := rfl
  sorted := .nil
  live s := by
    refine iff_of_false List.not_mem_nil ?_
    rintro ⟨before, path, later, h, -⟩
    exact absurd h.symm (by simp)

theorem id_lt (h : Feeds ops r) (hs : s ∈ r.subscriptions) : s.id < r.issued := by
  rw [h.issued]
  exact ((h.live s).1 hs).id_lt

theorem nodup (h : Feeds ops r) : (r.subscriptions.map (·.id)).Nodup :=
  List.pairwise_map.2 (h.sorted.imp Nat.ne_of_lt)

theorem sorted_step (h : Feeds ops r) (op : Op) :
    (r.step op).1.subscriptions.Pairwise (·.id < ·.id) := by
  cases op with
  | transact edits => exact h.sorted
  | subscribe path =>
    cases hpath : path.normalize? with
    | none =>
      rw [subscribe_refused hpath]
      exact h.sorted
    | some scope =>
      rw [subscribe_eq hpath, List.pairwise_append]
      refine ⟨h.sorted, List.pairwise_singleton _ _, fun s hs new hnew => ?_⟩
      obtain rfl := List.mem_singleton.1 hnew
      exact h.id_lt hs
  | unsubscribe id => exact h.sorted.filter _

theorem step (h : Feeds ops r) (op : Op) : Feeds (ops ++ [op]) (r.step op).1 where
  issued := by rw [step_issued, h.issued, opened_append]
  sorted := h.sorted_step op
  live s := by rw [live_concat, ← h.live, ← h.issued, mem_step_iff]

theorem run (h : Feeds ops r) (more : List Op) :
    Feeds (ops ++ more) (play Repository.step r more).1 := by
  induction more generalizing ops r with
  | nil =>
    rw [List.append_nil]
    exact h
  | cons op more ih =>
    rw [List.append_cons]
    exact ih (h.step op)

end Feeds

theorem feeds_after (ops : List Op) : Feeds ops (after ops) :=
  Feeds.empty.run ops

/-! ## What is told -/

theorem batchesTo_append (id : Nat) (replies more : List Reply) :
    batchesTo id (replies ++ more) = batchesTo id replies ++ batchesTo id more :=
  List.flatMap_append

theorem batchesTo_play_cons (id : Nat) (r : Repository) (op : Op) (ops : List Op) :
    batchesTo id (play step r (op :: ops)).2 =
      (r.step op).2.batches id ++ batchesTo id (play step (r.step op).1 ops).2 := rfl

/-- A transaction is told to the subscriptions with a number in their order, where there is
something to tell. -/
theorem batches_transact (r : Repository) (edits : List Edit) (id : Nat) :
    (r.step (.transact edits)).2.batches id =
      ((r.subscriptions.filter (·.id = id)).map
        (Subscription.batch · (r.tree.transact edits).changes)).filter (· ≠ []) := by
  show ((r.deliveries _).filter (·.subscription = id)).map (·.batch) = _
  rw [deliveries, List.filter_filter, List.filter_map, List.map_map, List.filter_map,
    List.filter_filter]
  simp only [Function.comp_def, Bool.and_comm]

theorem batches_eq_nil (hnone : ∀ s ∈ r.subscriptions, s.id ≠ id) (op : Op) :
    (r.step op).2.batches id = [] := by
  have hfilter : r.subscriptions.filter (·.id = id) = [] := by
    rw [List.filter_eq_nil_iff]
    exact fun s hs => by simpa using hnone s hs
  cases op with
  | transact edits =>
    rw [batches_transact, hfilter]
    rfl
  | subscribe path =>
    cases hpath : path.normalize? with
    | none => rw [subscribe_refused hpath]; rfl
    | some scope => rw [subscribe_eq hpath]; rfl
  | unsubscribe id' => rfl

/-- Nobody is told anything under a number that is not given yet, or no longer. -/
theorem batchesTo_eq_nil (hnone : ∀ s ∈ r.subscriptions, s.id ≠ id)
    (hnever : id < r.issued ∨ r.issued + opened ops ≤ id) :
    batchesTo id (play step r ops).2 = [] := by
  induction ops generalizing r with
  | nil => rfl
  | cons op ops ih =>
    rw [batchesTo_play_cons, batches_eq_nil hnone, List.nil_append]
    have hcount : opened (op :: ops) = opened [op] + opened ops := opened_append [op] ops
    have hissued := step_issued r op
    refine ih (fun s hs => ?_) (by omega)
    obtain ⟨hold, -⟩ | ⟨path, rfl, hpath, hnew⟩ := mem_step_iff.1 hs
    · exact hnone s hold
    · have hmade : opened [.subscribe path] = 1 := opened_subscribe hpath []
      omega

theorem filter_unsubscribe {other : Nat} (h : other ≠ id) (r : Repository) :
    (r.unsubscribe other).subscriptions.filter (·.id = id) =
      r.subscriptions.filter (·.id = id) := by
  rw [unsubscribe, List.filter_filter]
  refine List.filter_congr fun s _ => ?_
  by_cases hid : s.id = id <;> simp [hid, h.symm]

/-- While a subscription is kept it is told its part of each transaction. -/
theorem batchesTo_listening (hkept : r.subscriptions.filter (·.id = s.id) = [s])
    (hid : s.id < r.issued) (ops : List Op) :
    batchesTo s.id (play step r ops).2 =
      ((reports r.tree (ops.takeWhile (!·.ends s.id))).map (Subscription.batch s)).filter
        (· ≠ []) := by
  induction ops generalizing r with
  | nil => rfl
  | cons op ops ih =>
    rw [batchesTo_play_cons]
    cases op with
    | transact edits =>
      have hnext := ih (r := (r.step (.transact edits)).1) hkept hid
      rw [hnext, batches_transact, hkept, ← List.filter_append]
      rfl
    | subscribe path =>
      cases hpath : path.normalize? with
      | none =>
        rw [subscribe_refused hpath, ih hkept hid]
        rfl
      | some scope =>
        rw [subscribe_eq hpath, ih ?_ (Nat.lt_succ_of_lt hid)]
        · rfl
        · have hnew : r.issued ≠ s.id := by omega
          rw [List.filter_append, hkept, List.filter_cons_of_neg (by simpa using hnew)]
          rfl
    | unsubscribe id =>
      show batchesTo s.id (play step (r.unsubscribe id) ops).2 = _
      by_cases hend : id = s.id
      · have hgone : ∀ kept ∈ (r.unsubscribe id).subscriptions, kept.id ≠ s.id := by
          intro kept hmem
          simpa [hend] using (List.mem_filter.1 hmem).2
        rw [batchesTo_eq_nil hgone (Or.inl hid),
          List.takeWhile_cons_of_neg (by simpa [Op.ends] using hend)]
        rfl
      · rw [ih ((filter_unsubscribe hend r).trans hkept) hid,
          List.takeWhile_cons_of_pos (by simpa [Op.ends] using hend)]
        rfl

theorem replies_split (before : List Op) (op : Op) (later : List Op) :
    replies (before ++ op :: later) = replies before ++
      ((after before).step op).2 :: (play step ((after before).step op).1 later).2 := by
  rw [replies, play_append, play_cons]
  rfl

/-- From its subscription to its end, a subscriber is told its part of each transaction. -/
theorem batchesTo_replies {path scope : Path} (hpath : path.normalize? = some scope)
    (before later : List Op) :
    batchesTo (opened before) (replies (before ++ .subscribe path :: later)) =
      ((reports (after before).tree (later.takeWhile (!·.ends (opened before)))).map
        (Subscription.batch ⟨opened before, scope⟩)).filter (· ≠ []) := by
  have hfeeds := feeds_after before
  have hbefore : batchesTo (opened before) (replies before) = [] :=
    batchesTo_eq_nil (r := .empty) (fun _ hs => absurd hs List.not_mem_nil)
      (Or.inr (Nat.le_of_eq (Nat.zero_add _)))
  have hold : (after before).subscriptions.filter (·.id = opened before) = [] := by
    rw [List.filter_eq_nil_iff]
    intro s hs
    simpa [← hfeeds.issued] using Nat.ne_of_lt (hfeeds.id_lt hs)
  let s : Subscription := ⟨opened before, scope⟩
  have hkept : ((after before).subscriptions ++ [s]).filter (·.id = s.id) = [s] := by
    rw [List.filter_append, hold, List.nil_append]
    exact List.filter_cons_of_pos (decide_eq_true rfl)
  rw [replies_split, batchesTo_append, hbefore, List.nil_append, subscribe_eq hpath, hfeeds.issued]
  exact batchesTo_listening (s := s) hkept (Nat.lt_succ_self _) later

/-- A transaction is told to the live subscriptions, in the order in which they were made. -/
theorem deliveries_after (before : List Op) (changes : List Change) :
    ((after before).deliveries changes).Pairwise (·.subscription < ·.subscription) ∧
      ∀ delivery, delivery ∈ (after before).deliveries changes ↔ delivery.batch ≠ [] ∧
        ∃ s, Live before s ∧ delivery = ⟨s.id, Subscription.batch s changes⟩ := by
  have hfeeds := feeds_after before
  refine ⟨List.Pairwise.filter _ (List.pairwise_map.2 hfeeds.sorted), fun delivery => ?_⟩
  rw [deliveries, List.mem_filter, List.mem_map, and_comm, decide_eq_true_eq]
  simp only [hfeeds.live, eq_comm]

/-- The numbers come in order, and none comes twice. -/
theorem ids_play (r : Repository) (ops : List Op) :
    (play step r ops).2.filterMap Reply.id? = List.range' r.issued (opened ops) := by
  induction ops generalizing r with
  | nil => rfl
  | cons op ops ih =>
    rw [play_cons, List.filterMap_cons, ih]
    cases op with
    | transact edits => rfl
    | subscribe path =>
      cases hpath : path.normalize? with
      | none =>
        rw [subscribe_refused hpath, opened_subscribe_refused hpath]
        rfl
      | some scope =>
        rw [subscribe_eq hpath, opened_subscribe hpath]
        rfl
    | unsubscribe id => rfl

/-- Ending a subscription takes it alone away. -/
theorem unsubscribe_live (h : Live ops s) : (after ops).unsubscribe s.id =
    { after ops with subscriptions := (after ops).subscriptions.erase s } := by
  have hfeeds := feeds_after ops
  rw [unsubscribe, hfeeds.nodup.of_map.erase_eq_filter]
  congr 1
  refine List.filter_congr fun other hother => ?_
  have hsame : other.id = s.id ↔ other = s :=
    ⟨List.inj_on_of_nodup_map hfeeds.nodup hother ((hfeeds.live s).2 h), congrArg _⟩
  rw [Bool.eq_iff_iff, decide_eq_true_iff, bne_iff_ne, ne_eq, hsame]

/-- Ending a subscription that is not there changes nothing. -/
theorem unsubscribe_unknown (h : ∀ s, Live ops s → s.id ≠ id) :
    (after ops).unsubscribe id = after ops := by
  have hkeep : (after ops).subscriptions.filter (·.id ≠ id) = (after ops).subscriptions := by
    rw [List.filter_eq_self]
    exact fun s hs => decide_eq_true (h s (((feeds_after ops).live s).1 hs))
  rw [unsubscribe, hkeep]

/-- From when it is made until it ends, a subscription is told the changes of each transaction at or
below its scope, in order and as one batch, and nothing of a transaction without such changes. Each
transaction is told to the live subscriptions that it concerns, once and in the order in which they
were made. No number is given twice. The end of a live subscription takes it alone away; the end of
another one, and a subscription to what is no absolute path, change nothing. -/
theorem feed_tells_each_its_part (ops : List Op) :
    (∀ before path later scope, ops = before ++ .subscribe path :: later →
      path.normalize? = some scope →
      let id := opened before
      let parts := (reports (after before).tree (later.takeWhile (!·.ends id))).map
        (·.filter (·.path.isWithin scope))
      batchesTo id (replies ops) = parts.filter (· ≠ []) ∧
        (batchesTo id (replies ops)).flatten = parts.flatten) ∧
    (∀ before edits later, ops = before ++ .transact edits :: later →
      let changes := ((after before).tree.transact edits).changes
      ∃ deliveries rest, replies ops = replies before ++ .told deliveries :: rest ∧
        deliveries.Pairwise (·.subscription < ·.subscription) ∧
        ∀ delivery, delivery ∈ deliveries ↔ delivery.batch ≠ [] ∧
          ∃ s, Live before s ∧ delivery = ⟨s.id, changes.filter (·.path.isWithin s.scope)⟩) ∧
    (replies ops).filterMap Reply.id? = List.range (opened ops) ∧
    (∀ s, s ∈ (after ops).subscriptions ↔ Live ops s) ∧
    (∀ s, Live ops s → (after ops).step (.unsubscribe s.id) =
      ({ after ops with subscriptions := (after ops).subscriptions.erase s }, .nothing)) ∧
    (∀ id, (∀ s, Live ops s → s.id ≠ id) →
      (after ops).step (.unsubscribe id) = (after ops, .nothing)) ∧
    ∀ path, path.normalize? = none →
      (after ops).step (.subscribe path) = (after ops, .refused (.notAbsolute path)) := by
  refine ⟨?_, ?_, ?_, (feeds_after ops).live, fun s hs => ?_, fun id hid => ?_,
    fun path hpath => subscribe_refused hpath _⟩
  · rintro before path later scope rfl hpath
    have htold := batchesTo_replies hpath before later
    refine ⟨htold, ?_⟩
    rw [htold, List.flatten_filter_ne_nil]
    rfl
  · rintro before edits later rfl
    obtain ⟨hsorted, hmem⟩ := deliveries_after before ((after before).tree.transact edits).changes
    exact ⟨_, _, replies_split before (.transact edits) later, hsorted, hmem⟩
  · rw [List.range_eq_range']
    exact ids_play empty ops
  · rw [step, unsubscribe_live hs]
  · rw [step, unsubscribe_unknown hid]

/-- A subscription beside another one within its scope is told its part of two transactions and, when
it has ended, nothing of the third. -/
theorem feed_tells_each_its_part_nested :
    let a : Path := .ofString "/a"
    let b : Path := .ofString "/a/b"
    let c : Path := .ofString "/c"
    let bare : Path := .ofString "/"
    let before : List Op := [.subscribe b, .transact [.addNode a]]
    let later : List Op := [.transact [.addNode b, .addNode c], .unsubscribe 0,
      .transact [.removeNode a], .unsubscribe 1, .transact [.addNode b], .subscribe c]
    let ops := before ++ .subscribe a :: later
    a.normalize? = some a ∧
    batchesTo 1 (replies ops) = [[.added b], [.removed a]] ∧
    (∃ deliveries rest,
      replies ops = replies (before ++ [.subscribe a]) ++ .told deliveries :: rest ∧
      ∀ delivery ∈ deliveries, delivery.batch ≠ []) ∧
    (replies ops).filterMap Reply.id? = [0, 1, 2] ∧
    Live ops ⟨2, c⟩ ∧
    ((after ops).step (.unsubscribe 2)).1.subscriptions = [] ∧
    (after ops).step (.unsubscribe 1) = (after ops, .nothing) ∧
    bare.normalize? = none ∧
    (after ops).step (.subscribe bare) = (after ops, .refused (.notAbsolute bare)) := by
  intro a b c bare before later ops
  obtain ⟨htold, htransact, hids, hlive, hend, hunknown, hrefused⟩ := feed_tells_each_its_part ops
  have ha : a.normalize? = some a := by decide
  have hbare : bare.normalize? = none := by decide
  have hkept : (after ops).subscriptions = [⟨2, c⟩] := by decide
  have hlast : Live ops ⟨2, c⟩ := by
    rw [← hlive, hkept]
    exact List.mem_singleton_self _
  obtain ⟨deliveries, rest, hsplit, -, hmem⟩ :=
    htransact (before ++ [.subscribe a]) _ later.tail rfl
  refine ⟨ha, (htold before _ later _ rfl ha).1.trans (by decide),
    ⟨deliveries, rest, hsplit, fun delivery h => ((hmem delivery).1 h).1⟩, hids.trans (by decide),
    hlast, ?_, hunknown 1 fun s hs => ?_, hbare, hrefused _ hbare⟩
  · rw [hend _ hlast, hkept]
    decide
  · rw [← hlive, hkept, List.mem_singleton] at hs
    rw [hs]
    decide

end Graft.Repository
