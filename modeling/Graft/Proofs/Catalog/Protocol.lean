import Graft.Proofs.Catalog.History
import Mathlib.Data.List.Range

/-!
# The protocol of publication

What a board is told over a whole history of its catalog. At each root publications and withdrawals
take turns, and a withdrawal takes down the publication right before it, however far back in the
history the catalog learned its handle.

The invariant is `Journal`: the calls at a root take turns and leave up the handle in its slot. That
no handle comes twice follows from counting publications and from the withdrawn handles being out
of the slots.
-/

namespace Graft

namespace Board

/-! ## Taking turns -/

def callsAt (calls : List Call) (root : Path) : List Call := calls.filter (·.root = root)

/-- Whether publications and withdrawals take turns, a publication first, and each withdrawal takes
down the publication right before it. -/
def takeTurns : List Call → Bool
  | [] => true
  | [first] => first.isPublish
  | first :: second :: rest =>
    first.isPublish && !second.isPublish && second.handle == first.handle && takeTurns rest

/-- The handle of the last call, if that is a publication. -/
def leftUp (calls : List Call) : Option Nat :=
  match calls.getLast? with
  | some (.publish _ k) => some k
  | _ => none

/-- Whether `k` was published at `root` and not withdrawn since. -/
def LiveIn (calls : List Call) (root : Path) (k : Nat) : Prop :=
  .publish root k ∈ calls ∧ .withdraw root k ∉ calls

theorem Call.eq_withdraw {call : Call} (h : call.isPublish = false) :
    call = .withdraw call.root call.handle := by
  cases call with
  | publish root k => simp [isPublish] at h
  | withdraw root k => rfl

theorem leftUp_cons_cons {first second : Call} (rest : List Call)
    (h : second.isPublish = false) : leftUp (first :: second :: rest) = leftUp rest := by
  rw [Call.eq_withdraw h]
  cases rest with
  | nil => rfl
  | cons third rest => simp [leftUp, List.getLast?_cons_cons]

@[simp] theorem leftUp_append_publish (calls : List Call) (root : Path) (k : Nat) :
    leftUp (calls ++ [.publish root k]) = some k := by
  simp [leftUp]

@[simp] theorem leftUp_append_withdraw (calls : List Call) (root : Path) (k : Nat) :
    leftUp (calls ++ [.withdraw root k]) = none := by
  simp [leftUp]

theorem takeTurns_append_publish {calls : List Call} (h : takeTurns calls = true)
    (hdown : leftUp calls = none) (root : Path) (k : Nat) :
    takeTurns (calls ++ [.publish root k]) = true := by
  induction calls using takeTurns.induct with
  | case1 => rfl
  | case2 first =>
    cases first with
    | publish root' k' => cases hdown
    | withdraw root' k' => cases h
  | case3 first second rest ih =>
    simp only [takeTurns, Bool.and_eq_true, Bool.not_eq_true'] at h
    obtain ⟨⟨⟨hfirst, hsecond⟩, hhandle⟩, hrest⟩ := h
    rw [leftUp_cons_cons rest hsecond] at hdown
    simp only [List.cons_append, takeTurns, hfirst, hsecond, hhandle, ih hrest hdown]
    rfl

theorem takeTurns_append_withdraw {calls : List Call} {k : Nat} (h : takeTurns calls = true)
    (hup : leftUp calls = some k) (root : Path) :
    takeTurns (calls ++ [.withdraw root k]) = true := by
  induction calls using takeTurns.induct with
  | case1 => cases hup
  | case2 first =>
    cases first with
    | publish root' k' =>
      cases hup
      simp [takeTurns, Call.isPublish, Call.handle]
    | withdraw root' k' => cases h
  | case3 first second rest ih =>
    simp only [takeTurns, Bool.and_eq_true, Bool.not_eq_true'] at h
    obtain ⟨⟨⟨hfirst, hsecond⟩, hhandle⟩, hrest⟩ := h
    rw [leftUp_cons_cons rest hsecond] at hup
    simp only [List.cons_append, takeTurns, hfirst, hsecond, hhandle, ih hrest hup]
    rfl

/-- What follows a publication is its withdrawal. -/
theorem withdraws_next {before rest : List Call} {call next : Call}
    (h : takeTurns (before ++ call :: next :: rest) = true) (hcall : call.isPublish = true) :
    next.isPublish = false ∧ next.handle = call.handle := by
  induction before using takeTurns.induct with
  | case1 =>
    simp only [List.nil_append, takeTurns, Bool.and_eq_true, Bool.not_eq_true', beq_iff_eq] at h
    exact ⟨h.1.1.2, h.1.2⟩
  | case2 first =>
    -- after an odd number of calls a publication is out of turn
    simp only [List.singleton_append, takeTurns, Bool.and_eq_true, Bool.not_eq_true'] at h
    rw [h.1.1.2] at hcall
    cases hcall
  | case3 first second before ih =>
    simp only [List.cons_append, takeTurns, Bool.and_eq_true] at h
    exact ih h.2

end Board

namespace Catalog

open Board

/-! ## The invariant -/

/-- The views agree, and the board's calls tell how they came about. -/
structure Journal (s : Table Path Entry) (v : Table Path Mapping) (b : Board) : Prop
    extends Agree s v b where
  turns : ∀ root, takeTurns (callsAt b.calls root) = true
  leftUp_eq : ∀ root, leftUp (callsAt b.calls root) = (s.get? root).map (·.handle)
  published_eq : (b.calls.filter (·.isPublish)).map (·.handle) = List.range b.next
  withdrawn_nodup : ((b.calls.filter (!·.isPublish)).map (·.handle)).Nodup
  withdrawn_not_up : ∀ k ∈ (b.calls.filter (!·.isPublish)).map (·.handle),
    k < b.next ∧ k ∉ b.up.map (·.1)

namespace Journal

variable {s : Table Path Entry} {v : Table Path Mapping} {b : Board}

theorem withdraw (h : Journal s v b) {root : Path} {e : Entry} (he : s.get? root = some e) :
    Journal (s.erase root) (v.erase root) (b.withdraw e.handle) := by
  have hroot := h.root_eq he
  have hup : (e.handle, e.mapping) ∈ b.up := by
    rw [h.mem_up_iff, hroot]
    exact he
  have hcalls : (b.withdraw e.handle).calls = b.calls ++ [.withdraw root e.handle] := by
    rw [h.board_withdraw he]
  have hleft : (b.withdraw e.handle).up = b.up.filter (·.1 ≠ e.handle) := by
    rw [h.board_withdraw he]
  have hnext : (b.withdraw e.handle).next = b.next := by
    rw [h.board_withdraw he]
  have hat : ∀ p, callsAt (b.withdraw e.handle).calls p =
      callsAt b.calls p ++ if root = p then [.withdraw root e.handle] else [] := by
    intro p
    rw [hcalls, callsAt, List.filter_append, List.filter_cons, List.filter_nil]
    by_cases hp : root = p
    · simp [callsAt, Call.root, hp]
    · simp [callsAt, Call.root, hp]
  have hhandle : leftUp (callsAt b.calls root) = some e.handle := by rw [h.leftUp_eq, he]; rfl
  refine ⟨h.toAgree.withdraw he, ?_, ?_, ?_, ?_, ?_⟩
  · intro p
    rw [hat]
    split
    · next hp => exact takeTurns_append_withdraw (h.turns p) (hp ▸ hhandle) root
    · rw [List.append_nil]
      exact h.turns p
  · intro p
    rw [hat, Table.get?_erase]
    by_cases hp : root = p
    · simp [hp]
    · rw [if_neg hp, if_neg (Ne.symm hp), List.append_nil]
      exact h.leftUp_eq p
  · rw [hcalls, hnext, List.filter_append, List.map_append, h.published_eq]
    exact List.append_nil _
  · rw [hcalls, List.filter_append, List.map_append]
    refine List.nodup_append.2 ⟨h.withdrawn_nodup, List.nodup_singleton _, ?_⟩
    rintro k hk k' hk' rfl
    rw [List.mem_singleton.1 hk'] at hk
    exact (h.withdrawn_not_up _ hk).2 (List.mem_map.2 ⟨_, hup, rfl⟩)
  · intro k hk
    rw [hcalls, List.filter_append, List.map_append, List.mem_append] at hk
    rw [hnext, hleft]
    rcases hk with hk | hk
    · obtain ⟨hlt, hnot⟩ := h.withdrawn_not_up k hk
      exact ⟨hlt, fun hmem => hnot (List.map_subset _ (List.filter_subset_self _) hmem)⟩
    · obtain rfl := List.mem_singleton.1 hk
      exact ⟨h.lt_next _ hup, by simp [Call.handle]⟩

theorem publish (h : Journal s v b) {m : Mapping} (hfree : s.get? m.root = none) :
    Journal (s.insert m.root ⟨m, b.next⟩) (v.insert m.root m) (b.publish m).1 := by
  have hat : ∀ p, callsAt (b.publish m).1.calls p =
      callsAt b.calls p ++ if m.root = p then [.publish m.root b.next] else [] := by
    intro p
    rw [Board.publish, callsAt, List.filter_append, List.filter_cons, List.filter_nil]
    by_cases hp : m.root = p
    · simp [callsAt, Call.root, hp]
    · simp [callsAt, Call.root, hp]
  have hdown : leftUp (callsAt b.calls m.root) = none := by rw [h.leftUp_eq, hfree]; rfl
  refine ⟨h.toAgree.publish hfree, ?_, ?_, ?_, ?_, ?_⟩
  · intro p
    rw [hat]
    split
    · next hp => exact takeTurns_append_publish (h.turns p) (hp ▸ hdown) m.root b.next
    · rw [List.append_nil]
      exact h.turns p
  · intro p
    rw [hat, Table.get?_insert]
    by_cases hp : m.root = p
    · simp [hp]
    · rw [if_neg hp, if_neg (Ne.symm hp), List.append_nil]
      exact h.leftUp_eq p
  · rw [Board.publish, List.filter_append, List.map_append, h.published_eq, List.range_succ]
    rfl
  · rw [Board.publish, List.filter_append, List.map_append]
    exact (List.append_nil _).symm ▸ h.withdrawn_nodup
  · intro k hk
    rw [Board.publish, List.filter_append, List.map_append, List.mem_append] at hk
    have hold := hk.resolve_right List.not_mem_nil
    obtain ⟨hlt, hnot⟩ := h.withdrawn_not_up k hold
    -- the new handle is above every handle that has been withdrawn
    refine ⟨Nat.lt_succ_of_lt hlt, ?_⟩
    simp only [Board.publish, List.map_append, List.mem_append, List.map_cons, List.map_nil,
      List.mem_singleton, not_or]
    exact ⟨hnot, Nat.ne_of_lt hlt⟩

end Journal

theorem journal_stable : Stable Journal where
  agree h := h.toAgree
  withdraw h he := h.withdraw he
  publish h hfree := h.publish hfree

theorem journal_empty : Journal .empty .empty .empty where
  toAgree := consistent_empty
  turns _ := rfl
  leftUp_eq _ := rfl
  published_eq := rfl
  withdrawn_nodup := List.nodup_nil
  withdrawn_not_up k hk := by cases hk

theorem journal_after (ops : List Op) :
    Journal (after ops).slots (after ops).visible (after ops).board :=
  journal_stable.keeps_after journal_empty ops

/-! ## Over a whole history -/

/-- What is published at a root and not withdrawn in a beginning of the calls is the last call about
the root there. -/
theorem getLast?_of_liveIn {calls rest : List Call} {root : Path} {k : Nat}
    (hturns : takeTurns (callsAt (calls ++ rest) root) = true) (h : LiveIn calls root k) :
    (callsAt calls root).getLast? = some (.publish root k) := by
  have hmem : Call.publish root k ∈ callsAt calls root :=
    List.mem_filter.2 ⟨h.1, decide_eq_true rfl⟩
  obtain ⟨before, since, hsplit⟩ := List.append_of_mem hmem
  cases since with
  | nil => rw [hsplit, List.getLast?_concat]
  | cons next since =>
    rw [callsAt, List.filter_append] at hturns
    rw [callsAt] at hsplit
    rw [hsplit, List.append_assoc, List.cons_append, List.cons_append] at hturns
    obtain ⟨hdown, hhandle⟩ := withdraws_next hturns rfl
    have hnext : next ∈ calls.filter (·.root = root) := by rw [hsplit]; simp
    obtain ⟨hcalls, hroot⟩ := List.mem_filter.1 hnext
    rw [Call.eq_withdraw hdown, of_decide_eq_true hroot, hhandle] at hcalls
    exact absurd hcalls h.2

/-- Two handles that are live in a beginning of the calls are one. -/
theorem eq_of_liveIn {calls rest : List Call} {root : Path} {k k' : Nat}
    (hturns : takeTurns (callsAt (calls ++ rest) root) = true) (hk : LiveIn calls root k)
    (hk' : LiveIn calls root k') : k = k' := by
  have hlast := getLast?_of_liveIn hturns hk
  rw [getLast?_of_liveIn hturns hk'] at hlast
  injection Option.some.inj hlast with _ heq
  exact heq.symm

/-- Between two publications at a root the first one is withdrawn. -/
theorem withdraw_mem_between {before between since : List Call} {root : Path} {k k' : Nat}
    (hturns : takeTurns (callsAt
      (before ++ .publish root k :: between ++ .publish root k' :: since) root) = true) :
    .withdraw root k ∈ between := by
  have hhead : ∀ (k : Nat) (calls : List Call), (Call.publish root k :: calls).filter (·.root = root) =
      .publish root k :: callsAt calls root :=
    fun _ _ => List.filter_cons_of_pos (decide_eq_true rfl)
  rw [callsAt, List.filter_append, List.filter_append, hhead, hhead, List.append_assoc,
    List.cons_append] at hturns
  cases hbetween : callsAt between root with
  | nil =>
    -- two publications in a row are out of turn
    rw [hbetween] at hturns
    cases (withdraws_next hturns rfl).1
  | cons next calls =>
    rw [hbetween] at hturns
    obtain ⟨hdown, hhandle⟩ := withdraws_next hturns rfl
    have hnext : next ∈ between.filter (·.root = root) := by
      rw [← callsAt, hbetween]
      exact List.mem_cons_self
    obtain ⟨hmem, hroot⟩ := List.mem_filter.1 hnext
    rw [Call.eq_withdraw hdown, of_decide_eq_true hroot, hhandle] at hmem
    exact hmem

/-- The calls about a root end with a publication exactly if its slot is filled. -/
theorem Journal.ends_with_publish {s : Table Path Entry} {v : Table Path Mapping} {b : Board}
    (h : Journal s v b) (root : Path) :
    (callsAt b.calls root).getLast?.any (·.isPublish) = (v.get? root).isSome := by
  rw [h.visible_eq, Option.isSome_map, ← Option.isSome_map (f := Entry.handle), ← h.leftUp_eq,
    leftUp]
  cases (callsAt b.calls root).getLast? with
  | none => rfl
  | some call =>
    cases call with
    | publish root' k => rfl
    | withdraw root' k => rfl

/-- In any history the calls about a root take turns, each withdrawal for the publication right
before it, and end with a publication exactly if the root is active. No handle is published twice or
withdrawn twice. So at most one handle of a root is live in any beginning of the calls, and between
two publications at a root the first is withdrawn. -/
theorem history_keeps_protocol (ops : List Op) :
    let c := after ops
    (∀ root, takeTurns (callsAt c.board.calls root) = true ∧
      (callsAt c.board.calls root).getLast?.any (·.isPublish) = c.contains root) ∧
    ((c.board.calls.filter (·.isPublish)).map (·.handle)).Nodup ∧
    ((c.board.calls.filter (!·.isPublish)).map (·.handle)).Nodup ∧
    (∀ calls, calls <+: c.board.calls → ∀ root k k',
      LiveIn calls root k → LiveIn calls root k' → k = k') ∧
    (∀ root k k' before between since,
      c.board.calls = before ++ .publish root k :: between ++ .publish root k' :: since →
      .withdraw root k ∈ between) := by
  have h := journal_after ops
  refine ⟨?_, ?_, h.withdrawn_nodup, ?_, ?_⟩
  · intro root
    exact ⟨h.turns root, h.ends_with_publish root⟩
  · rw [h.published_eq]
    exact List.nodup_range
  · rintro calls ⟨rest, hrest⟩ root k k' hk hk'
    have hturns := h.turns root
    rw [← hrest] at hturns
    exact eq_of_liveIn hturns hk hk'
  · intro root k k' before between since hcalls
    have hturns := h.turns root
    rw [hcalls] at hturns
    exact withdraw_mem_between hturns

end Catalog

end Graft
