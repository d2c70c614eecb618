import Graft.Proofs.Catalog.History
import Graft.Proofs.Path.Within
import Mathlib.Data.List.DropRight

/-!
# The accounts of the board

A history of publications, withdrawals and forgettings, in any order and with any handles, right or
wrong. The handle of a publication is the number of those before it, so what is live and what was
taken down can be read off the history alone (`Live`, `TakenDown`), and with it what strayed
(`Strays`).

A board that forgets nothing has all calls in its log (`log`). Forgetting takes away a beginning of
them (`log_eq_append`) and makes no other difference (`forget_after_remembering`). What a single
operation does to the balance of the recorded calls (`balance_step`) then adds up from the last
forgetting on.
-/

namespace Graft.Board

inductive Op where
  | publish (m : Mapping)
  | withdraw (handle : Nat)
  | forget
deriving DecidableEq

def step (b : Board) : Op → Board × Option Nat
  | .publish m => let (b, handle) := b.publish m; (b, some handle)
  | .withdraw handle => (b.withdraw handle, none)
  | .forget => (b.forget, none)

def after (ops : List Op) : Board := (play step empty ops).1

def handles (ops : List Op) : List Nat := (play step empty ops).2.filterMap id

/-- The calls on record after some operations, had none been forgotten. -/
def log (ops : List Op) : List Call := (after (ops.filter (· ≠ .forget))).calls

/-! ## Histories alone -/

def Op.published? : Op → Option Mapping
  | .publish m => some m
  | .withdraw _ | .forget => none

def publications (ops : List Op) : Nat := ops.countP (·.published?.isSome)

/-- One of the operations publishes `m` under the handle `k`, and `later` are those behind it. -/
def Published (ops : List Op) (k : Nat) (m : Mapping) (later : List Op) : Prop :=
  ∃ before, ops = before ++ .publish m :: later ∧ publications before = k

/-- `m` is published under the handle `k` and not taken down since. -/
def Live (ops : List Op) (k : Nat) (m : Mapping) : Prop :=
  ∃ later, Published ops k m later ∧ .withdraw k ∉ later

/-- `m` is published under the handle `k` and taken down since. -/
def TakenDown (ops : List Op) (k : Nat) (m : Mapping) : Prop :=
  ∃ later, Published ops k m later ∧ .withdraw k ∈ later

/-- The operation takes down what is not live after those before it. -/
def Strays (before : List Op) : Op → Prop
  | .withdraw k => ∀ m, ¬ Live before k m
  | .publish _ | .forget => False

/-- The operations up to the last one that forgets the calls. -/
def untilForgotten (ops : List Op) : List Op := ops.rdropWhile (· ≠ .forget)

variable {ops : List Op} {op : Op} {b : Board} {k : Nat} {m : Mapping} {later : List Op}

theorem publications_append (before later : List Op) :
    publications (before ++ later) = publications before + publications later :=
  List.countP_append

theorem publications_publish (m : Mapping) (later : List Op) :
    publications (.publish m :: later) = publications later + 1 :=
  List.countP_cons_of_pos rfl

theorem not_published_nil : ¬ Published [] k m later := by
  rintro ⟨before, h, -⟩
  exact absurd h.symm (by simp)

theorem Published.lt_publications (h : Published ops k m later) : k < publications ops := by
  obtain ⟨before, rfl, rfl⟩ := h
  rw [publications_append, publications_publish]
  omega

/-- What is published is published by the last operation or before it. -/
theorem published_concat : Published (ops ++ [op]) k m later ↔
    (∃ since, Published ops k m since ∧ later = since ++ [op]) ∨
      op = .publish m ∧ publications ops = k ∧ later = [] := by
  constructor
  · rintro ⟨before, hsplit, hk⟩
    rcases List.eq_nil_or_concat later with rfl | ⟨since, last, rfl⟩
    · obtain ⟨rfl, hop⟩ := List.append_inj' hsplit rfl
      exact Or.inr ⟨List.singleton_inj.1 hop, hk, rfl⟩
    · rw [List.concat_eq_append, ← List.cons_append, ← List.append_assoc] at hsplit
      obtain ⟨rfl, hop⟩ := List.append_inj' hsplit rfl
      obtain rfl := List.singleton_inj.1 hop
      exact Or.inl ⟨since, ⟨before, rfl, hk⟩, List.concat_eq_append⟩
  · rintro (⟨since, ⟨before, rfl, hk⟩, rfl⟩ | ⟨rfl, hk, rfl⟩)
    · exact ⟨before, by rw [List.append_assoc, List.cons_append], hk⟩
    · exact ⟨ops, rfl, hk⟩

theorem live_concat : Live (ops ++ [op]) k m ↔
    (Live ops k m ∧ op ≠ .withdraw k) ∨ op = .publish m ∧ publications ops = k := by
  constructor
  · rintro ⟨later, hpublished, hnot⟩
    rcases published_concat.1 hpublished with ⟨since, hsince, rfl⟩ | ⟨hop, hk, -⟩
    · rw [List.mem_append, List.mem_singleton, not_or] at hnot
      exact Or.inl ⟨⟨since, hsince, hnot.1⟩, Ne.symm hnot.2⟩
    · exact Or.inr ⟨hop, hk⟩
  · rintro (⟨⟨since, hsince, hnot⟩, hop⟩ | ⟨hop, hk⟩)
    · refine ⟨since ++ [op], published_concat.2 (Or.inl ⟨since, hsince, rfl⟩), ?_⟩
      rw [List.mem_append, List.mem_singleton, not_or]
      exact ⟨hnot, Ne.symm hop⟩
    · exact ⟨[], published_concat.2 (Or.inr ⟨hop, hk, rfl⟩), List.not_mem_nil⟩

theorem takenDown_concat : TakenDown (ops ++ [op]) k m ↔
    TakenDown ops k m ∨ Live ops k m ∧ op = .withdraw k := by
  constructor
  · rintro ⟨later, hpublished, hmem⟩
    rcases published_concat.1 hpublished with ⟨since, hsince, rfl⟩ | ⟨-, -, rfl⟩
    · rw [List.mem_append, List.mem_singleton] at hmem
      by_cases hdown : .withdraw k ∈ since
      · exact Or.inl ⟨since, hsince, hdown⟩
      · exact Or.inr ⟨⟨since, hsince, hdown⟩, (hmem.resolve_left hdown).symm⟩
    · cases hmem
  · rintro (⟨since, hsince, hmem⟩ | ⟨⟨since, hsince, -⟩, rfl⟩)
    · exact ⟨since ++ [op], published_concat.2 (Or.inl ⟨since, hsince, rfl⟩),
        List.mem_append_left _ hmem⟩
    · exact ⟨since ++ [.withdraw k], published_concat.2 (Or.inl ⟨since, hsince, rfl⟩),
        List.mem_append_right _ (List.mem_singleton_self _)⟩

/-- A handle is given once. -/
theorem Published.unique {m' : Mapping} {later' : List Op} (h : Published ops k m later)
    (h' : Published ops k m' later') : m = m' ∧ later = later' := by
  induction ops using List.reverseRecOn generalizing later later' with
  | nil => exact absurd h not_published_nil
  | append_singleton ops op ih =>
    rcases published_concat.1 h with ⟨since, hsince, rfl⟩ | ⟨hop, hk, rfl⟩
    · rcases published_concat.1 h' with ⟨since', hsince', rfl⟩ | ⟨-, hk', -⟩
      · obtain ⟨hm, hlater⟩ := ih hsince hsince'
        exact ⟨hm, congrArg (· ++ [op]) hlater⟩
      · exact absurd hsince.lt_publications (hk' ▸ Nat.lt_irrefl _)
    · rcases published_concat.1 h' with ⟨since', hsince', -⟩ | ⟨hop', -, rfl⟩
      · exact absurd hsince'.lt_publications (hk ▸ Nat.lt_irrefl _)
      · exact ⟨Op.publish.inj (hop.symm.trans hop'), rfl⟩

theorem TakenDown.not_live {m' : Mapping} (h : TakenDown ops k m) : ¬ Live ops k m' := by
  rintro ⟨later', hpublished', hnot⟩
  obtain ⟨later, hpublished, hmem⟩ := h
  exact hnot ((hpublished.unique hpublished').2 ▸ hmem)

theorem untilForgotten_concat (h : op ≠ .forget) :
    untilForgotten (ops ++ [op]) = untilForgotten ops :=
  List.rdropWhile_concat_pos _ _ _ (decide_eq_true h)

theorem untilForgotten_forget (ops : List Op) :
    untilForgotten (ops ++ [.forget]) = ops ++ [.forget] :=
  List.rdropWhile_concat_neg _ _ _ (by simp)

/-! ## What is up -/

theorem after_concat (ops : List Op) (op : Op) :
    after (ops ++ [op]) = ((after ops).step op).1 := by
  rw [after, play_append]
  rfl

/-- Whether or not it strays, a withdrawal leaves up what has another handle. -/
theorem up_withdraw (b : Board) (k : Nat) : (b.withdraw k).up = b.up.filter (·.1 ≠ k) := by
  rw [withdraw]
  split
  · rfl
  · next hnone =>
    have hkeep : ∀ e ∈ b.up, decide (e.1 ≠ k) = true := by
      intro e he
      rw [decide_eq_true_eq]
      rintro rfl
      have hne := List.lookup_eq_none_iff.1 hnone e he
      rw [bne_self_eq_false] at hne
      cases hne
    exact (List.filter_eq_self.2 hkeep).symm

theorem nodup_of_sorted (h : b.up.Pairwise (·.1 < ·.1)) : (b.up.map (·.1)).Nodup :=
  List.pairwise_map.2 (h.imp Nat.ne_of_lt)

/-- The board has counted the publications of a history and shows those that are live, in the order
in which they were made. -/
structure Shows (ops : List Op) (b : Board) : Prop where
  next : b.next = publications ops
  sorted : b.up.Pairwise (·.1 < ·.1)
  live : ∀ k m, (k, m) ∈ b.up ↔ Live ops k m

namespace Shows

theorem empty : Shows [] .empty where
  next := rfl
  sorted := .nil
  live _ _ := iff_of_false List.not_mem_nil fun ⟨_, hpublished, _⟩ => not_published_nil hpublished

theorem lt_next (h : Shows ops b) {e : Nat × Mapping} (he : e ∈ b.up) : e.1 < b.next := by
  obtain ⟨later, hpublished, -⟩ := (h.live e.1 e.2).1 he
  rw [h.next]
  exact hpublished.lt_publications

theorem step (h : Shows ops b) (op : Op) : Shows (ops ++ [op]) (b.step op).1 := by
  cases op with
  | publish m =>
    refine ⟨?_, ?_, fun k m' => ?_⟩
    · rw [publications_append, ← h.next]
      rfl
    · show (b.up ++ [(b.next, m)]).Pairwise _
      rw [List.pairwise_append]
      refine ⟨h.sorted, List.pairwise_singleton _ _, fun e he new hnew => ?_⟩
      obtain rfl := List.mem_singleton.1 hnew
      exact h.lt_next he
    · show (k, m') ∈ b.up ++ [(b.next, m)] ↔ _
      have hother : Op.publish m ≠ .withdraw k := Op.noConfusion
      rw [List.mem_append, List.mem_singleton, h.live, live_concat, and_iff_left hother, h.next,
        Prod.mk.injEq, Op.publish.injEq, and_comm (a := k = _), eq_comm (a := m'),
        eq_comm (a := k)]
  | withdraw k =>
    refine ⟨?_, ?_, fun k' m => ?_⟩
    · show (b.withdraw k).next = _
      rw [publications_append, ← h.next, withdraw]
      split
      · rfl
      · rfl
    · show (b.withdraw k).up.Pairwise _
      rw [up_withdraw]
      exact h.sorted.filter _
    · show (k', m) ∈ (b.withdraw k).up ↔ _
      have hother : Op.withdraw k ≠ .publish m := Op.noConfusion
      rw [up_withdraw, List.mem_filter, h.live, live_concat, or_iff_left fun hop => hother hop.1,
        decide_eq_true_eq, ne_eq, ne_eq, Op.withdraw.injEq, eq_comm (a := k)]
  | forget =>
    refine ⟨?_, h.sorted, fun k m => ?_⟩
    · rw [publications_append, ← h.next]
      rfl
    · show (k, m) ∈ b.up ↔ _
      rw [h.live, live_concat]
      simp

end Shows

theorem shows_after (ops : List Op) : Shows ops (after ops) := by
  induction ops using List.reverseRecOn with
  | nil => exact Shows.empty
  | append_singleton ops op ih =>
    rw [after_concat]
    exact ih.step op

theorem lookup_eq_some_iff : (after ops).up.lookup k = some m ↔ Live ops k m := by
  rw [← (shows_after ops).live, Table.lookup_eq_some_iff_mem (shows_after ops).sorted]

theorem Live.unique {m' : Mapping} (h : Live ops k m) (h' : Live ops k m') : m = m' := by
  obtain ⟨later, hpublished, -⟩ := h
  obtain ⟨later', hpublished', -⟩ := h'
  exact (hpublished.unique hpublished').1

theorem lookup_eq_none_iff : (after ops).up.lookup k = none ↔ ∀ m, ¬ Live ops k m := by
  rw [Option.eq_none_iff_forall_ne_some]
  exact forall_congr' fun m => not_congr lookup_eq_some_iff

instance (before : List Op) : DecidablePred (Strays before)
  | .withdraw _ => decidable_of_iff _ lookup_eq_none_iff
  | .publish _ | .forget => inferInstanceAs (Decidable False)

/-- How many of the operations take down what is not live at that moment. -/
def strayed (ops : List Op) : Nat :=
  (List.range ops.length).countP fun i => ops[i]?.any fun op => Strays (ops.take i) op

/-! ## What is on record -/

def withdrawals (calls : List Call) : List Nat := (calls.filter (!·.isPublish)).map (·.handle)

theorem withdrawals_append (calls more : List Call) :
    withdrawals (calls ++ more) = withdrawals calls ++ withdrawals more := by
  rw [withdrawals, List.filter_append, List.map_append]
  rfl

theorem mem_withdrawals_iff {calls : List Call} :
    k ∈ withdrawals calls ↔ ∃ root, .withdraw root k ∈ calls := by
  rw [withdrawals, List.mem_map]
  constructor
  · rintro ⟨call, hcall, rfl⟩
    obtain ⟨hmem, hdown⟩ := List.mem_filter.1 hcall
    cases call with
    | publish root handle => cases hdown
    | withdraw root handle => exact ⟨root, hmem⟩
  · rintro ⟨root, hmem⟩
    exact ⟨_, List.mem_filter.2 ⟨hmem, rfl⟩, rfl⟩

/-- What was recorded before makes no difference but to the record. -/
theorem forget_step (b : Board) (op : Op) : (b.step op).1.forget = (b.forget.step op).1.forget := by
  cases op with
  | publish m => rfl
  | withdraw k =>
    show (b.withdraw k).forget = (b.forget.withdraw k).forget
    simp only [withdraw, forget]
    split
    · rfl
    · rfl
  | forget => rfl

theorem remembered_concat (hop : op ≠ .forget) :
    (ops ++ [op]).filter (· ≠ .forget) = ops.filter (· ≠ .forget) ++ [op] := by
  have hkept : [op].filter (· ≠ .forget) = [op] := List.filter_cons_of_pos (decide_eq_true hop)
  rw [List.filter_append, hkept]

theorem remembered_concat_forget (hop : op = .forget) :
    (ops ++ [op]).filter (· ≠ .forget) = ops.filter (· ≠ .forget) := by
  have hleft : [op].filter (· ≠ .forget) = [] := List.filter_cons_of_neg (by simpa using hop)
  rw [List.filter_append, hleft, List.append_nil]

theorem forget_after_remembering (ops : List Op) :
    (after (ops.filter (· ≠ .forget))).forget = (after ops).forget := by
  induction ops using List.reverseRecOn with
  | nil => rfl
  | append_singleton ops op ih =>
    rw [after_concat, forget_step, ← ih, ← forget_step]
    by_cases hop : op = .forget
    · rw [remembered_concat_forget hop, hop]
      rfl
    · rw [remembered_concat hop, after_concat]

/-- An operation adds to the record what it leaves where nothing is on record. -/
theorem calls_step (hop : op ≠ .forget) (b : Board) :
    (b.step op).1.calls = b.calls ++ (b.forget.step op).1.calls := by
  cases op with
  | publish m => rfl
  | withdraw k =>
    show (b.withdraw k).calls = b.calls ++ (b.forget.withdraw k).calls
    simp only [withdraw, forget]
    split
    · rfl
    · exact (List.append_nil _).symm
  | forget => exact absurd rfl hop

theorem log_concat (ops : List Op) (op : Op) :
    log (ops ++ [op]) = log ops ++ ((after ops).forget.step op).1.calls := by
  by_cases hop : op = .forget
  · rw [log, remembered_concat_forget hop, hop]
    exact (List.append_nil _).symm
  · rw [log, remembered_concat hop, after_concat, calls_step hop, forget_after_remembering, log]

/-- On record is what came to the log since the calls were last forgotten. -/
theorem log_eq_append (ops : List Op) :
    log ops = log (untilForgotten ops) ++ (after ops).calls := by
  induction ops using List.reverseRecOn with
  | nil => rfl
  | append_singleton ops op ih =>
    by_cases hop : op = .forget
    · subst hop
      rw [untilForgotten_forget, after_concat]
      exact (List.append_nil _).symm
    · rw [log_concat, untilForgotten_concat hop, after_concat, calls_step hop (after ops),
        ← List.append_assoc, ← ih]

theorem withdraw_of_live (h : Live ops k m) (b : Board) (hup : b.up = (after ops).up) :
    b.withdraw k = { b with
      calls := b.calls ++ [.withdraw m.root k]
      up := b.up.filter (·.1 ≠ k) } := by
  rw [withdraw, hup, lookup_eq_some_iff.2 h]

theorem withdraw_of_strays (h : Strays ops (.withdraw k)) (b : Board)
    (hup : b.up = (after ops).up) : b.withdraw k = { b with strays := b.strays + 1 } := by
  rw [withdraw, hup, lookup_eq_none_iff.2 h]

/-- A withdrawal is recorded if it takes down what is live, under the root of that. -/
theorem withdraw_mem_calls_iff {root : Path} :
    .withdraw root k ∈ ((after ops).forget.step op).1.calls ↔
      ∃ m, Live ops k m ∧ op = .withdraw k ∧ m.root = root := by
  cases op with
  | publish m =>
    refine iff_of_false (fun hmem => ?_) fun ⟨_, _, hop, _⟩ => Op.noConfusion hop
    cases List.mem_singleton.1 hmem
  | withdraw k' =>
    show .withdraw root k ∈ ((after ops).forget.withdraw k').calls ↔ _
    by_cases hstrays : Strays ops (.withdraw k')
    · rw [withdraw_of_strays hstrays (after ops).forget rfl]
      refine iff_of_false List.not_mem_nil ?_
      rintro ⟨m, hlive, hop, -⟩
      obtain rfl := Op.withdraw.inj hop
      exact hstrays m hlive
    · obtain ⟨m, hlive⟩ := not_forall_not.1 hstrays
      rw [withdraw_of_live hlive (after ops).forget rfl]
      show .withdraw root k ∈ [Call.withdraw m.root k'] ↔ _
      rw [List.mem_singleton, Call.withdraw.injEq]
      constructor
      · rintro ⟨rfl, rfl⟩
        exact ⟨m, hlive, rfl, rfl⟩
      · rintro ⟨m', hlive', hop, rfl⟩
        obtain rfl := Op.withdraw.inj hop
        exact ⟨congrArg Mapping.root (hlive'.unique hlive), rfl⟩
  | forget =>
    exact iff_of_false List.not_mem_nil fun ⟨_, _, hop, _⟩ => Op.noConfusion hop

theorem withdraw_mem_log_iff {root : Path} :
    .withdraw root k ∈ log ops ↔ ∃ m, TakenDown ops k m ∧ m.root = root := by
  induction ops using List.reverseRecOn with
  | nil =>
    exact iff_of_false List.not_mem_nil fun ⟨_, ⟨_, hpublished, _⟩, _⟩ =>
      not_published_nil hpublished
  | append_singleton ops op ih =>
    rw [log_concat, List.mem_append, ih, withdraw_mem_calls_iff, ← exists_or]
    refine exists_congr fun m => ?_
    rw [takenDown_concat, or_and_right, and_assoc]

theorem withdrawals_log_nodup (ops : List Op) : (withdrawals (log ops)).Nodup := by
  induction ops using List.reverseRecOn with
  | nil => exact List.nodup_nil
  | append_singleton ops op ih =>
    rw [log_concat, withdrawals_append, List.nodup_append]
    refine ⟨ih, ?_, ?_⟩
    · cases op with
      | publish m => exact List.nodup_nil
      | withdraw k =>
        show (withdrawals ((after ops).forget.withdraw k).calls).Nodup
        rw [withdraw]
        split
        · exact List.nodup_singleton k
        · exact List.nodup_nil
      | forget => exact List.nodup_nil
    · -- what was taken down before is not live any more
      rintro k hold k' hnew rfl
      obtain ⟨root, hlog⟩ := mem_withdrawals_iff.1 hold
      obtain ⟨root', hcalls⟩ := mem_withdrawals_iff.1 hnew
      obtain ⟨m, hdown, -⟩ := withdraw_mem_log_iff.1 hlog
      obtain ⟨m', hlive, -⟩ := withdraw_mem_calls_iff.1 hcalls
      exact hdown.not_live hlive

/-! ## What is counted -/

theorem handles_concat (ops : List Op) (op : Op) :
    handles (ops ++ [op]) = handles ops ++ ((after ops).step op).2.toList := by
  have hreplies : (play step empty (ops ++ [op])).2 =
      (play step empty ops).2 ++ [((after ops).step op).2] := by
    rw [play_append]
    rfl
  rw [handles, hreplies, List.filterMap_append, handles]
  cases ((after ops).step op).2 with
  | none => rfl
  | some k => rfl

theorem handles_eq_range (ops : List Op) : handles ops = List.range (publications ops) := by
  induction ops using List.reverseRecOn with
  | nil => rfl
  | append_singleton ops op ih =>
    rw [handles_concat, ih, publications_append]
    cases op with
    | publish m =>
      show _ ++ [(after ops).next] = _
      rw [(shows_after ops).next]
      exact List.range_succ.symm
    | withdraw k => exact List.append_nil _
    | forget => exact List.append_nil _

theorem strayed_concat (ops : List Op) (op : Op) :
    strayed (ops ++ [op]) = strayed ops + if Strays ops op then 1 else 0 := by
  rw [strayed, List.length_append, List.length_singleton, List.range_succ, List.countP_append,
    List.countP_singleton, List.getElem?_concat_length, List.take_left, Option.any_some]
  simp only [decide_eq_true_eq]
  congr 1
  refine List.countP_congr fun i hi => ?_
  have hlt := List.mem_range.1 hi
  rw [List.getElem?_append_left hlt, List.take_append_of_le_length (Nat.le_of_lt hlt)]

theorem strays_step (ops : List Op) (op : Op) :
    ((after ops).step op).1.strays = (after ops).strays + if Strays ops op then 1 else 0 := by
  cases op with
  | publish m => rfl
  | withdraw k =>
    show ((after ops).withdraw k).strays = _
    by_cases hstrays : Strays ops (.withdraw k)
    · rw [if_pos hstrays, withdraw_of_strays hstrays (after ops) rfl]
    · obtain ⟨m, hlive⟩ := not_forall_not.1 hstrays
      rw [if_neg hstrays, withdraw_of_live hlive (after ops) rfl]
      rfl
  | forget => rfl

theorem strays_eq_strayed (ops : List Op) : (after ops).strays = strayed ops := by
  induction ops using List.reverseRecOn with
  | nil => rfl
  | append_singleton ops op ih => rw [after_concat, strays_step, strayed_concat, ih]

/-- One entry comes down with a handle. -/
theorem length_filter_up (hb : b.up.Pairwise (·.1 < ·.1)) (hlookup : b.up.lookup k = some m) :
    (b.up.filter (·.1 ≠ k)).length + 1 = b.up.length := by
  have hup : (k, m) ∈ b.up := (Table.lookup_eq_some_iff_mem hb).1 hlookup
  have hkeys : (b.up.filter (·.1 ≠ k)).map (·.1) = (b.up.map (·.1)).erase k := by
    rw [(nodup_of_sorted hb).erase_eq_filter, List.filter_map]
    congr 1
    refine List.filter_congr fun e _ => ?_
    rw [Function.comp_apply, Bool.eq_iff_iff, decide_eq_true_iff, bne_iff_ne]
  have hmem : k ∈ b.up.map (·.1) := List.mem_map.2 ⟨_, hup, rfl⟩
  have hlength := congrArg List.length hkeys
  rw [List.length_map, List.length_erase_of_mem hmem, List.length_map] at hlength
  have hpos := List.length_pos_of_mem hup
  omega

/-- As long as nothing is forgotten, what is up and what was recorded as taken down add up to what
was recorded as published. -/
theorem balance_step (hop : op ≠ .forget) (hb : b.up.Pairwise (·.1 < ·.1)) :
    (b.step op).1.published + (b.withdrawn + b.up.length) =
      b.published + ((b.step op).1.withdrawn + (b.step op).1.up.length) := by
  have hpublished : (b.step op).1.published =
      b.published + (b.forget.step op).1.calls.countP (·.isPublish) := by
    rw [published, calls_step hop, List.countP_append, published]
  have hwithdrawn : (b.step op).1.withdrawn =
      b.withdrawn + (b.forget.step op).1.calls.countP (!·.isPublish) := by
    rw [withdrawn, calls_step hop, List.countP_append, withdrawn]
  rw [hpublished, hwithdrawn]
  cases op with
  | publish m =>
    show b.published + 1 + _ = _ + (b.withdrawn + 0 + (b.up ++ [(b.next, m)]).length)
    rw [List.length_append, List.length_singleton]
    omega
  | withdraw k =>
    show b.published + (b.forget.withdraw k).calls.countP _ + _ =
      _ + (b.withdrawn + (b.forget.withdraw k).calls.countP _ + (b.withdraw k).up.length)
    cases hlookup : b.up.lookup k with
    | some m =>
      have hlength := length_filter_up hb hlookup
      have hcalls : (b.forget.withdraw k).calls = [.withdraw m.root k] := by
        simp only [withdraw, forget, hlookup, List.nil_append]
      rw [up_withdraw, hcalls]
      show b.published + 0 + _ = _ + (b.withdrawn + 1 + _)
      omega
    | none =>
      simp only [withdraw, forget, hlookup]
      rfl
  | forget => exact absurd rfl hop

/-- The recorded publications exceed the recorded withdrawals by what came up since the calls were
last forgotten. -/
theorem balance_after (ops : List Op) :
    (after ops).published + (after (untilForgotten ops)).up.length =
      (after ops).withdrawn + (after ops).up.length := by
  induction ops using List.reverseRecOn with
  | nil => rfl
  | append_singleton ops op ih =>
    by_cases hop : op = .forget
    · subst hop
      rw [untilForgotten_forget, after_concat]
      rfl
    · have hstep := balance_step hop (shows_after ops).sorted
      rw [untilForgotten_concat hop, after_concat]
      omega

theorem shown_sorted (b : Board) : b.shown.Pairwise (·.root ≤ ·.root) := by
  have hsorted : b.shown.Pairwise (Mapping.comesBefore · ·) := by
    refine List.pairwise_mergeSort ?_ Mapping.comesBefore_total _
    exact fun _ _ _ => Mapping.comesBefore_trans
  refine hsorted.imp fun hbefore => ?_
  rcases Mapping.comesBefore_iff.1 hbefore with hlt | ⟨heq, -⟩
  · exact Std.le_of_lt hlt
  · exact Std.le_of_eq heq

/-- Publications get the handles from zero on, in their order. Up are exactly the mappings that were
published and not taken down since, each under its handle, and they are shown in the order of their
roots. Over the whole history each handle is recorded as taken down at most once, exactly if it is
not live any more, and with the root of what was published under it; on record is what came to the
log since the calls were last forgotten. The strays are the withdrawals of what was not live at that
moment, which are not recorded and change nothing else. On record there are as many more
publications than withdrawals as there are more mappings up than when the calls were last
forgotten. -/
theorem board_keeps_accounts (ops : List Op) :
    let b := after ops
    handles ops = List.range (publications ops) ∧
    (∀ k m, (k, m) ∈ b.up ↔ Live ops k m) ∧ (b.up.map (·.1)).Nodup ∧
    b.shown.Perm (b.up.map (·.2)) ∧ b.shown.Pairwise (·.root ≤ ·.root) ∧
    (withdrawals (log ops)).Nodup ∧
    (∀ root k, .withdraw root k ∈ log ops ↔ ∃ m, TakenDown ops k m ∧ m.root = root) ∧
    log ops = log (untilForgotten ops) ++ b.calls ∧
    b.strays = strayed ops ∧
    (∀ k, Strays ops (.withdraw k) → b.withdraw k = { b with strays := b.strays + 1 }) ∧
    (b.published : Int) - b.withdrawn = b.up.length - (after (untilForgotten ops)).up.length := by
  intro b
  have hshows := shows_after ops
  refine ⟨handles_eq_range ops, hshows.live, nodup_of_sorted hshows.sorted,
    List.mergeSort_perm _ _, b.shown_sorted, withdrawals_log_nodup ops,
    fun root k => withdraw_mem_log_iff, log_eq_append ops, strays_eq_strayed ops,
    fun k hstrays => withdraw_of_strays hstrays b rfl, ?_⟩
  have hbalance : b.published + _ = b.withdrawn + b.up.length := balance_after ops
  omega

/-- One mapping is published twice; a withdrawal comes too early, one in time, and one again. -/
theorem board_keeps_accounts_repeated :
    let m : Mapping := ⟨.ofString "/b", .ofString "/a", false, Path.isTidy_of_isNormal (by decide),
      Path.isTidy_of_isNormal (by decide), by decide, by decide⟩
    let ops : List Op :=
      [.withdraw 0, .publish m, .publish m, .forget, .withdraw 1, .withdraw 1]
    let b := after ops
    handles ops = [0, 1] ∧ Live ops 0 m ∧ withdrawals (log ops) = [1] ∧
    (∃ m', TakenDown ops 1 m' ∧ m'.root = m.root) ∧ b.calls = [.withdraw m.root 1] ∧
    b.strays = 2 ∧ Strays ops (.withdraw 1) ∧ b.withdraw 1 = { b with strays := 3 } ∧
    (b.published : Int) - b.withdrawn = 1 - 2 := by
  intro m ops b
  obtain ⟨hhandles, hlive, -, -, -, -, hlog, -, hstrays, hstray, hbalance⟩ :=
    board_keeps_accounts ops
  have htwice : Strays ops (.withdraw 1) := by decide
  refine ⟨hhandles.trans (by decide), (hlive 0 m).1 (by decide), by decide,
    (hlog m.root 1).1 (by decide), by decide, hstrays.trans (by decide), htwice, ?_,
    hbalance.trans (by decide)⟩
  exact (hstray 1 htwice).trans rfl

end Graft.Board
