import Graft.Proofs.Batch.LastWord
import Graft.Proofs.Repository.Answers

/-!
# Batches while reads fail

A property that cannot be read counts as absent, and a declaration without a source withdraws what
is active at its root. So a repository that cannot be read could cost mappings that nobody has
touched. It does not: before a node is read its existence is asked for, and before a pass registers
anything its queries are asked. Both fail first, and all that is left of a batch is that some roots
are unregistered whose nodes were removed (`outage_spares_unrelated`).

What comes of the actions is a run of unregistrations (`perform_of_failing`), so it is enough to
know what a run of unregistrations leaves in place.
-/

namespace Graft

/-! ## Nothing can be read -/

namespace Repository

variable {r : Repository}

theorem has_of_failing (hr : r.failing = true) (p : Path) : r.has p = .error (.unreadable p) := by
  simp only [has, guardRead, hr]
  rfl

/-- A search that is not refused for what it says is refused because it cannot read. -/
theorem search_of_failing (hr : r.failing = true) (q : Query) : ∃ e, r.search q = .error e := by
  have hguard : ∀ {p : Path} {list : List Path},
      (do r.guardRead p; return list : Except Error (List Path)) = .error (.unreadable p) := by
    intro p list
    simp only [guardRead, hr]
    rfl
  unfold search
  split
  · exact ⟨_, rfl⟩
  split
  · exact ⟨_, rfl⟩
  · exact ⟨_, hguard⟩
  · split
    · exact ⟨_, rfl⟩
    · exact ⟨_, hguard⟩

theorem found_of_failing (hr : r.failing = true) {queries : List String} {found : List Path}
    (hfound : r.declaring queries = .ok found) : found = [] := by
  obtain ⟨parsed, lists, -, hanswers, rfl⟩ := declaring_eq_found_iff.1 hfound
  cases hanswers with
  | nil => rfl
  | cons hq _ =>
    obtain ⟨e, he⟩ := search_of_failing hr _
    rw [hq] at he
    cases he

end Repository

namespace Catalog

variable {c : Catalog} {r : Repository} {roots : List Path}

/-! ## Unregistrations only -/

theorem get?_slots_unregister (c : Catalog) (root q : Path) :
    (c.unregister root).1.slots.get? q = if q = root then none else c.slots.get? q := by
  unfold unregister
  split
  · exact Table.get?_erase c.slots root q
  · next hnone =>
    split
    · next hq => rw [hq, hnone]
    · rfl

theorem get?_slots_play_unregister (c : Catalog) (roots : List Path) (q : Path) :
    (play unregister c roots).1.slots.get? q = if q ∈ roots then none else c.slots.get? q := by
  induction roots generalizing c with
  | nil => rfl
  | cons root roots ih =>
    rw [play_cons, ih, get?_slots_unregister]
    by_cases hq : q ∈ roots
    · simp [hq]
    · simp [hq]

/-- The board is told of withdrawals alone. -/
theorem calls_unregister (c : Catalog) (root : Path) :
    ∃ calls, (c.unregister root).1.board.calls = c.board.calls ++ calls ∧
      ∀ call ∈ calls, call.isPublish = false := by
  have hnone : ∃ calls, c.board.calls = c.board.calls ++ calls ∧
      ∀ call ∈ calls, Board.Call.isPublish call = false := ⟨[], (List.append_nil _).symm, nofun⟩
  unfold unregister
  split
  · next e _ =>
    dsimp only [withdraw, Board.withdraw]
    split
    · exact ⟨_, rfl, by simp [Board.Call.isPublish]⟩
    · exact hnone
  · exact hnone

theorem calls_play_unregister (c : Catalog) (roots : List Path) :
    ∃ calls, (play unregister c roots).1.board.calls = c.board.calls ++ calls ∧
      ∀ call ∈ calls, call.isPublish = false := by
  induction roots generalizing c with
  | nil => exact ⟨[], (List.append_nil _).symm, nofun⟩
  | cons root roots ih =>
    obtain ⟨calls, hcalls, hdown⟩ := calls_unregister c root
    obtain ⟨calls', hcalls', hdown'⟩ := ih (c.unregister root).1
    refine ⟨calls ++ calls', ?_, fun call hcall => ?_⟩
    · rw [play_cons, hcalls', hcalls, List.append_assoc]
    · rcases List.mem_append.1 hcall with hcall | hcall
      · exact hdown call hcall
      · exact hdown' call hcall

theorem consistent_play_unregister (h : c.Consistent) (roots : List Path) :
    (play unregister c roots).1.Consistent :=
  play_invariant (I := Consistent) (fun _ root h => consistent_unregister h root) h roots

/-- A mapping whose root is not unregistered keeps its place, its record and its handle. -/
theorem kept_play_unregister (h : c.Consistent) {root : Path} {e : Entry}
    (he : c.slots.get? root = some e) (hroot : root ∉ roots) :
    (play unregister c roots).1.slots.get? root = some e ∧
      (play unregister c roots).1.lookup root = some e.mapping ∧
      (e.handle, e.mapping) ∈ (play unregister c roots).1.board.up := by
  have hconsistent := consistent_play_unregister h roots
  have hkept : (play unregister c roots).1.slots.get? root = some e := by
    rw [get?_slots_play_unregister, if_neg hroot, he]
  refine ⟨hkept, ?_, ?_⟩
  · rw [lookup, hconsistent.visible_eq, hkept]
    rfl
  · obtain rfl := hconsistent.root_eq hkept
    exact (hconsistent.mem_up_iff _ _).2 hkept

/-! ## Batches -/

/-- The roots that are unregistered before the first action that asks to register something. -/
def unregisteredFirst (order : List (Path × Action)) : List Path :=
  (order.takeWhile (·.2 = .unregister)).map (·.1)

theorem mem_of_unregisteredFirst {order : List (Path × Action)} {root : Path}
    (h : root ∈ unregisteredFirst order) : (root, Action.unregister) ∈ order := by
  obtain ⟨⟨p, action⟩, hx, rfl⟩ := List.mem_map.1 h
  obtain rfl : action = .unregister := by simpa using List.mem_takeWhile_imp hx
  exact (List.takeWhile_sublist _).subset hx

/-- A batch has a root unregistered only for a removal at or above it. -/
theorem removed_of_unregisteredFirst {batch : List Change} {order : List (Path × Action)}
    (horder : order.Perm (Plan.of c batch).actions.entries) {root : Path}
    (hroot : root ∈ unregisteredFirst order) :
    (Plan.of c batch).actions.get? root = some .unregister ∧
      ∃ change ∈ batch, change.kind = .nodeRemoved ∧ root.isWithin change.path = true := by
  have hget : (Plan.of c batch).actions.get? root = some .unregister :=
    Table.get?_eq_some_iff.2 (horder.mem_iff.1 (mem_of_unregisteredFirst hroot))
  obtain ⟨before, change, later, hbatch, hconcerns, -⟩ := Plan.get?_of_eq_some_iff.1 hget
  have hchange : change ∈ batch := by simp [hbatch]
  cases hconcerns with
  | removal hkind _ hwithin => exact ⟨hget, change, hchange, hkind, hwithin⟩

/-- Where nothing can be read, actions unregister what comes before the first registration, and fail
there. -/
theorem perform_of_failing (hr : r.failing = true) (order : List (Path × Action)) (c : Catalog)
    (out : Batch.Outcome) :
    (c.perform r order out).1 = (play unregister c (unregisteredFirst order)).1 ∧
    ((∃ p, (p, Action.register) ∈ order ∧
        (c.perform r order out).2 = .error (.repository (.unreadable p))) ∨
      (∀ p, (p, Action.register) ∉ order) ∧ ∃ out', (c.perform r order out).2 = .ok out' ∧
        out'.registered = out.registered ∧ out'.pass = out.pass) := by
  induction order generalizing c out with
  | nil => exact ⟨rfl, Or.inr ⟨fun _ => List.not_mem_nil, out, rfl, rfl, rfl⟩⟩
  | cons x order ih =>
    obtain ⟨p, action⟩ := x
    cases action with
    | unregister =>
      obtain ⟨hleft, hresult⟩ := ih (c.unregister p).1
        { out with unregistered := out.unregistered + (c.unregister p).2.toNat }
      refine ⟨hleft, ?_⟩
      rcases hresult with ⟨q, hq, herror⟩ | ⟨hnone, hok⟩
      · exact Or.inl ⟨q, List.mem_cons_of_mem _ hq, herror⟩
      · refine Or.inr ⟨fun q hq => ?_, hok⟩
        rcases List.mem_cons.1 hq with ⟨⟨⟩⟩ | hq
        exact hnone q hq
    | register =>
      rw [perform, Repository.has_of_failing hr]
      exact ⟨rfl, Or.inl ⟨p, List.mem_cons_self, rfl⟩⟩

/-- A pass that finds anything could read it, so a pass that reads nothing does nothing. -/
theorem pass_of_failing (hr : r.failing = true) (c : Catalog) (queries : List String)
    (stop : Nat → Bool) : (c.pass r queries stop).1 = c ∧
      ∀ report, (c.pass r queries stop).2 = .ok report → report = .blank := by
  unfold pass
  cases hfound : r.declaring queries with
  | error e => exact ⟨rfl, nofun⟩
  | ok found =>
    obtain rfl := Repository.found_of_failing hr hfound
    exact ⟨rfl, fun report hreport => (Except.ok.inj hreport).symm⟩

/-- What the actions have left is all that comes of a batch while nothing can be read. -/
theorem carryOut_of_failing (hr : r.failing = true) (c : Catalog) (queries : List String)
    (plan : Plan) (order : List (Path × Action)) :
    (c.carryOut r queries plan order).1 = (c.perform r order .blank).1 ∧
    ((∃ p, (p, Action.register) ∈ order ∧
        (c.carryOut r queries plan order).2 = .error (.repository (.unreadable p))) ∨
      (∀ p, (p, Action.register) ∉ order) ∧ ∀ out, (c.carryOut r queries plan order).2 = .ok out →
        out.registered = 0 ∧ ∀ report ∈ out.pass, report = .blank) := by
  obtain ⟨-, hresult⟩ := perform_of_failing hr order c .blank
  unfold carryOut
  generalize c.perform r order .blank = performed at hresult ⊢
  obtain ⟨left, result⟩ := performed
  rcases hresult with ⟨p, hp, rfl⟩ | ⟨hnone, out, rfl, hregistered, hpass⟩
  · exact ⟨rfl, Or.inl ⟨p, hp, rfl⟩⟩
  dsimp only
  split
  · obtain ⟨hleft, hreport⟩ := pass_of_failing hr left queries fun _ => false
    refine ⟨hleft, Or.inr ⟨hnone, fun out' hout => ?_⟩⟩
    cases hpassed : (left.pass r queries fun _ => false).2 with
    | error e =>
      rw [hpassed] at hout
      cases hout
    | ok report =>
      rw [hpassed] at hout
      obtain rfl := Except.ok.inj hout
      refine ⟨hregistered, ?_⟩
      rintro _ ⟨⟩
      exact hreport report hpassed
  · refine ⟨rfl, Or.inr ⟨hnone, fun out' hout => ?_⟩⟩
    obtain rfl := Except.ok.inj hout
    rw [hpass]
    exact ⟨hregistered, nofun⟩

/-- Let a batch be followed while nothing can be read, its actions in any order. All that happens is
that roots are unregistered at or above which a node was removed. Nothing is published, and nothing
is registered or rejected, neither by an action nor by a pass. A mapping keeps its place, its record
and its handle if no removal is at or above its root, or if the plan is to register its root. The
batch fails if there is anything to register. -/
theorem outage_spares_unrelated (history : List Op) (hr : r.failing = true)
    (queries : List String) (batch : List Change) {order : List (Path × Action)}
    (horder : order.Perm (Plan.of (after history) batch).actions.entries) :
    let c := after history
    let plan := Plan.of c batch
    let done := c.carryOut r queries plan order
    (∃ roots, done.1 = (play unregister c roots).1 ∧ ∀ root ∈ roots,
      ∃ change ∈ batch, change.kind = .nodeRemoved ∧ root.isWithin change.path = true) ∧
    (∃ calls, done.1.board.calls = c.board.calls ++ calls ∧
      ∀ call ∈ calls, call.isPublish = false) ∧
    (∀ root e, c.slots.get? root = some e →
      (plan.actions.get? root = some .register ∨
        ∀ change ∈ batch, change.kind = .nodeRemoved → root.isWithin change.path = false) →
      done.1.slots.get? root = some e ∧ done.1.lookup root = some e.mapping ∧
        (e.handle, e.mapping) ∈ done.1.board.up) ∧
    (∀ out, done.2 = .ok out → out.registered = 0 ∧ ∀ report ∈ out.pass, report = .blank) ∧
    ((∃ p, plan.actions.get? p = some .register) →
      ∃ p, plan.actions.get? p = some .register ∧ done.2 = .error (.repository (.unreadable p))) ∧
    done.1 = (c.perform r order .blank).1 := by
  intro c plan done
  have h : c.Consistent := consistent_after history
  obtain ⟨hperform, -⟩ := perform_of_failing hr order c .blank
  obtain ⟨hdone, hresult⟩ := carryOut_of_failing hr c queries plan order
  have hleft : done.1 = (play unregister c (unregisteredFirst order)).1 := hdone.trans hperform
  have hplanned : ∀ x, x ∈ order ↔ plan.actions.get? x.1 = some x.2 := fun x =>
    horder.mem_iff.trans Table.get?_eq_some_iff.symm
  refine ⟨⟨_, hleft, fun root hroot => (removed_of_unregisteredFirst horder hroot).2⟩,
    ?_, ?_, ?_, ?_, hdone⟩
  · rw [hleft]
    exact calls_play_unregister c _
  · intro root e he hspared
    have hroot : root ∉ unregisteredFirst order := by
      intro hroot
      obtain ⟨hget, change, hchange, hkind, hwithin⟩ := removed_of_unregisteredFirst horder hroot
      rcases hspared with hregister | hspared
      · rw [hget] at hregister
        cases hregister
      · rw [hspared change hchange hkind] at hwithin
        cases hwithin
    rw [hleft]
    exact kept_play_unregister h he hroot
  · intro out hout
    rcases hresult with ⟨p, -, herror⟩ | ⟨-, hok⟩
    · rw [show done.2 = _ from herror] at hout
      cases hout
    · exact hok out hout
  · rintro ⟨p, hp⟩
    rcases hresult with ⟨q, hq, herror⟩ | ⟨hnone, -⟩
    · exact ⟨q, (hplanned _).1 hq, herror⟩
    · exact absurd ((hplanned (p, .register)).2 hp) (hnone p)

/-- Three mappings are active when the repository cannot be read any more. `/a` is removed, `/c` is
removed and declared anew and `/b` loses its source, of which nothing can be seen. The batch fails
at `/c`, and only `/a` is gone. When `/a` is removed and `/d` comes there is nothing to register, but
the pass that follows fails. -/
theorem outage_spares_unrelated_midway :
    let history : List Op := [.register ⟨.ofString "/a", some "/s", false, false⟩,
      .register ⟨.ofString "/b", some "/t", false, true⟩,
      .register ⟨.ofString "/c", some "/u", false, false⟩]
    let c := after history
    let r : Repository := { (Repository.empty.transact [.addNode (.ofString "/b"),
      .declare (.ofString "/c") "/v" false false]).1 with failing := true }
    let batch : List Change := [.removed (.ofString "/a"), .removed (.ofString "/c"),
      .added (.ofString "/c"), .property (.ofString "/c") "sourcePath" .propertyAdded,
      .property (.ofString "/b") "sourcePath" .propertyRemoved]
    let moved : List Change := [.removed (.ofString "/a"), .added (.ofString "/d")]
    let order := [(.ofString "/a", .unregister), (.ofString "/c", .register),
      (.ofString "/b", .register)]
    let ask := ["marker|superimpose"]
    let done := c.carryOut r ask (Plan.of c batch) order
    let done' := c.follow .asListed r ask moved
    done.1.mappings.map (·.root) = ["/b", "/c"].map .ofString ∧
    done.1.slots.get? (.ofString "/b") = c.slots.get? (.ofString "/b") ∧
    done.1.slots.get? (.ofString "/c") = c.slots.get? (.ofString "/c") ∧
    (∃ p, done.2 = .error (.repository (.unreadable p))) ∧
    (Plan.of c moved).needsPass = true ∧
    done'.2 = .error (.repository (.unreadable (.ofString "/"))) ∧
    done'.1.slots.get? (.ofString "/b") = c.slots.get? (.ofString "/b") := by
  intro history c r batch moved order ask done done'
  have horder : order.Perm (Plan.of c batch).actions.entries := by decide
  obtain ⟨-, -, hkept, -, hfails, -⟩ :=
    outage_spares_unrelated history (r := r) rfl ask batch horder
  obtain ⟨-, -, hkept', -⟩ := outage_spares_unrelated history (r := r) rfl ask moved (.refl _)
  have hslot : ∀ q ∈ ["/b", "/c"].map Path.ofString, (c.slots.get? q).isSome = true := by decide
  obtain ⟨b, hb⟩ := Option.isSome_iff_exists.1 (hslot (.ofString "/b") (by decide))
  obtain ⟨e, he⟩ := Option.isSome_iff_exists.1 (hslot (.ofString "/c") (by decide))
  obtain ⟨p, -, herror⟩ := hfails ⟨.ofString "/b", by decide⟩
  refine ⟨by decide, ?_, ?_, ⟨p, herror⟩, by decide, by decide, ?_⟩
  · exact (hkept _ b hb (Or.inl (by decide))).1.trans hb.symm
  · exact (hkept _ e he (Or.inl (by decide))).1.trans he.symm
  · exact (hkept' _ b hb (Or.inr (by decide))).1.trans hb.symm

end Catalog

end Graft
