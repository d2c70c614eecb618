import Graft.Proofs.Catalog.Protocol

/-!
# What the board is told of a root

Handles apart, what the board is told of a root is that a mapping goes up or comes down. Whatever a
catalog does, it tells of each root what has changed there and nothing else (`Tells`): one mapping
goes up where there was none, one comes down where there is none left, and one comes down before
another goes up in its place. As long as no root changes twice this adds up over any number of
operations (`Tells.trans`).
-/

namespace Graft

namespace Board

/-- A call about a root, without its handle. -/
inductive Notice where
  | up
  | down
deriving DecidableEq

def Call.notice : Call → Notice
  | publish .. => .up
  | withdraw .. => .down

def noticesAt (calls : List Call) (root : Path) : List Notice :=
  (callsAt calls root).map Call.notice

/-- What there is to say about a root at which one thing was active and another one is now. -/
def turnover : Option Mapping → Option Mapping → List Notice
  | none, none => []
  | none, some _ => [.up]
  | some _, none => [.down]
  | some m, some m' => if m = m' then [] else [.down, .up]

theorem noticesAt_append (calls calls' : List Call) (root : Path) :
    noticesAt (calls ++ calls') root = noticesAt calls root ++ noticesAt calls' root := by
  simp only [noticesAt, callsAt, List.filter_append, List.map_append]

/-- Calls that are all about one root say nothing of another one. -/
theorem noticesAt_of_root {calls : List Call} {root : Path} (h : ∀ call ∈ calls, call.root = root)
    (q : Path) : noticesAt calls q = if q = root then calls.map Call.notice else [] := by
  rw [noticesAt, callsAt]
  split
  · next hq =>
    rw [List.filter_eq_self.2]
    intro call hcall
    rw [h call hcall, hq, decide_eq_true_eq]
  · next hq =>
    rw [List.filter_eq_nil_iff.2, List.map_nil]
    intro call hcall
    rw [h call hcall, decide_eq_true_eq]
    exact Ne.symm hq

@[simp] theorem turnover_self (now : Option Mapping) : turnover now now = [] := by
  cases now with
  | none => rfl
  | some m => exact if_pos rfl

theorem turnover_sublist (old new : Option Mapping) : (turnover old new).Sublist [.down, .up] := by
  cases old with
  | none =>
    cases new with
    | none => exact List.nil_sublist _
    | some m => exact (List.Sublist.refl _).cons _
  | some m =>
    cases new with
    | none => exact (List.nil_sublist _).cons_cons _
    | some m' =>
      rw [turnover]
      split
      · exact List.nil_sublist _
      · exact List.Sublist.refl _

end Board

namespace Catalog

open Board

variable {c c' c₁ c₂ : Catalog}

/-- `c'` has come of `c`, and the board was told of each root what there is to say about it. -/
structure Tells (c c' : Catalog) : Prop where
  consistent : c'.Consistent
  isSealed_eq : c'.isSealed = c.isSealed
  told : ∃ calls, c'.board.calls = c.board.calls ++ calls ∧
    ∀ root, noticesAt calls root = turnover (c.lookup root) (c'.lookup root)

namespace Tells

theorem refl (h : c.Consistent) : Tells c c :=
  ⟨h, rfl, [], (List.append_nil _).symm, fun root => (turnover_self (c.lookup root)).symm⟩

/-- Some calls about one root tell what there is to say if nothing has changed elsewhere. -/
theorem of_calls (root : Path) {calls : List Call} (hconsistent : c'.Consistent)
    (hsealed : c'.isSealed = c.isSealed) (hcalls : c'.board.calls = c.board.calls ++ calls)
    (hroot : ∀ call ∈ calls, call.root = root)
    (helsewhere : ∀ q, q ≠ root → c'.lookup q = c.lookup q)
    (hthere : calls.map Call.notice = turnover (c.lookup root) (c'.lookup root)) : Tells c c' := by
  refine ⟨hconsistent, hsealed, calls, hcalls, fun q => ?_⟩
  rw [noticesAt_of_root hroot]
  split
  · next hq => rw [hq, hthere]
  · next hq => rw [helsewhere q hq, turnover_self]

theorem trans (h : Tells c c₁) (h' : Tells c₁ c₂)
    (honce : ∀ root, c₁.lookup root = c.lookup root ∨ c₂.lookup root = c₁.lookup root) :
    Tells c c₂ := by
  obtain ⟨calls, hcalls, htold⟩ := h.told
  obtain ⟨calls', hcalls', htold'⟩ := h'.told
  refine ⟨h'.consistent, h'.isSealed_eq.trans h.isSealed_eq, calls ++ calls', ?_, fun root => ?_⟩
  · rw [hcalls', hcalls, List.append_assoc]
  · rw [noticesAt_append, htold, htold']
    rcases honce root with hsame | hsame
    · rw [hsame, turnover_self, List.nil_append]
    · rw [hsame, turnover_self, List.append_nil]

theorem noticesAt_eq (h : Tells c c') (root : Path) : noticesAt c'.board.calls root =
    noticesAt c.board.calls root ++ turnover (c.lookup root) (c'.lookup root) := by
  obtain ⟨calls, hcalls, htold⟩ := h.told
  rw [hcalls, noticesAt_append, htold]

end Tells

/-! ## Each operation tells what it does -/

theorem tells_unregister (h : c.Consistent) (root : Path) : Tells c (c.unregister root).1 := by
  have hconsistent := consistent_unregister h root
  have hlook := lookup_unregister h root
  have hold : c.lookup root = _ := h.visible_eq root
  unfold unregister at hconsistent hlook ⊢
  split
  · next e he =>
    rw [he] at hold hconsistent hlook
    have hcalls := congrArg Board.calls (h.board_withdraw he)
    refine Tells.of_calls root hconsistent rfl hcalls ?_ (fun q hq => ?_) ?_
    · intro call hcall
      rw [List.mem_singleton.1 hcall]
      rfl
    · rw [hlook, if_neg hq]
    · rw [hlook, if_pos rfl, hold]
      rfl
  · exact Tells.refl h

theorem tells_install (h : c.Consistent) (m : Mapping) : Tells c (c.install m).1 := by
  have hconsistent := consistent_install h m
  have hlook := lookup_install h m
  have hold : c.lookup m.root = _ := h.visible_eq m.root
  unfold install at hconsistent hlook ⊢
  split
  · exact Tells.refl h
  next hopen =>
  simp only [if_neg hopen] at hconsistent hlook
  split
  · next hfree =>
    rw [hfree] at hold hconsistent hlook
    have hcalls : (c.activate m).board.calls =
        c.board.calls ++ [.publish m.root c.board.next] := rfl
    refine Tells.of_calls m.root hconsistent rfl hcalls ?_ (fun q hq => ?_) ?_
    · intro call hcall
      rw [List.mem_singleton.1 hcall]
      rfl
    · rw [hlook, if_neg hq]
    · rw [hlook, if_pos rfl, hold]
      rfl
  next e he =>
  rw [he] at hold
  simp only [he] at hconsistent hlook
  split
  · exact Tells.refl h
  · next hne =>
    simp only [if_neg hne] at hconsistent hlook
    have hcalls : ((c.withdraw e).activate m).board.calls =
        c.board.calls ++ [.withdraw m.root e.handle, .publish m.root c.board.next] := by
      simp [activate, withdraw, Board.publish, h.board_withdraw he]
    refine Tells.of_calls m.root hconsistent rfl hcalls ?_ (fun q hq => ?_) ?_
    · simp [Call.root]
    · rw [hlook, if_neg hq]
    · rw [hlook, if_pos rfl, hold]
      exact (if_neg hne).symm

theorem tells_register (h : c.Consistent) (d : Declaration) : Tells c (c.register d).1 := by
  unfold register
  split
  · exact tells_install h _
  · dsimp only
    split
    · exact tells_unregister h _
    · exact Tells.refl h

end Catalog

end Graft
