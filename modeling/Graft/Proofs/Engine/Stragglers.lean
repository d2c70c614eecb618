import Graft.Proofs.Engine.Bootstrap
import Graft.Proofs.Engine.Lifecycle

/-!
# Passes that outlive their activation

A pass that is held when its engine is deactivated has been told to stop and belongs to an
activation that is over. Neither can be taken back: whatever happens later, generations only grow
and a raised signal stays raised (`Onward`). Between two candidates a pass looks at the signal
first, and only the current activation's pass says how the bootstrap is. So a pass that was held
there comes to its end without a trace, even if the engine is active again and its catalog is open
(`straggler_leaves_no_trace`).
-/

namespace Graft

/-! ## Passes that are told to stop -/

namespace Pass

theorem total_finish_stopped {pass : Pass} (h : pass.AtPoll) {r : Repository} {c : Catalog}
    {report : Report} (hend : (pass.finish r (fun _ => true) c).2 = .ok report) :
    report.total = pass.report.total := by
  cases pass with
  | asking found queries =>
    rw [finish] at hend
    split at hend
    · cases hend
    · obtain rfl := Except.ok.inj hend
      exact (Catalog.sweep_stopped c r _ .blank).2
  | polling rest done =>
    obtain rfl := Except.ok.inj hend
    exact (Catalog.sweep_stopped c r rest done).2
  | reading node seen rest done => exact h.elim

theorem atPoll_of_step {pass pass' : Pass} (h : pass.AtPoll) {r : Repository} {c : Catalog}
    (hstep : (pass.step r (fun _ => true) c).2 = .held pass') : pass'.AtPoll := by
  cases pass with
  | asking found queries =>
    cases queries with
    | nil =>
      cases hstep
      trivial
    | cons query queries =>
      rw [step] at hstep
      split at hstep
      · cases hstep
      · cases hstep
        trivial
  | polling rest report =>
    cases rest with
    | nil => cases hstep
    | cons p rest => cases hstep
  | reading node seen rest report => exact h.elim

theorem candidate?_of_atPoll {pass : Pass} (h : pass.AtPoll) : pass.candidate? = none := by
  cases pass with
  | asking found queries => rfl
  | polling rest report => rfl
  | reading node seen rest report => exact h.elim

end Pass

namespace Engine

variable {settings : Settings} {e e' e'' : Engine}

/-! ## What cannot be taken back -/

/-- The pass `x` has been told to stop, between two candidates if not before its queries. -/
def Held.Doomed (x : Held) : Prop := x.signal.raised = true ∧ x.pass.AtPoll

/-- `e'` may come of `e`: what `e'` holds was begun later, or `e` held it, and a pass that was doomed is
doomed still. -/
structure Onward (e e' : Engine) : Prop where
  generation_le : e.generation ≤ e'.generation
  held : ∀ y ∈ e'.held, e.generation < y.generation ∨
    ∃ x ∈ e.held, y.generation = x.generation ∧ (x.Doomed → y.Doomed)

namespace Onward

theorem of_subset (hgeneration : e.generation ≤ e'.generation) (hheld : e'.held ⊆ e.held) :
    Onward e e' :=
  ⟨hgeneration, fun y hy => Or.inr ⟨y, hheld hy, rfl, id⟩⟩

theorem refl (e : Engine) : Onward e e := of_subset (Nat.le_refl _) (List.Subset.refl _)

theorem trans (h : Onward e e') (h' : Onward e' e'') : Onward e e'' := by
  refine ⟨h.generation_le.trans h'.generation_le, fun z hz => ?_⟩
  rcases h'.held z hz with hlater | ⟨y, hy, hgeneration, hdoomed⟩
  · exact Or.inl (Nat.lt_of_le_of_lt h.generation_le hlater)
  · rcases h.held y hy with hlater | ⟨x, hx, hgeneration', hdoomed'⟩
    · exact Or.inl (hgeneration ▸ hlater)
    · exact Or.inr ⟨x, hx, hgeneration.trans hgeneration', hdoomed ∘ hdoomed'⟩

end Onward

theorem onward_deactivate (e : Engine) (order : Arrangement Catalog.Entry) :
    Onward e (e.deactivate order) := by
  cases ha : e.active with
  | none =>
    rw [deactivate_of_inactive ha]
    exact Onward.refl e
  | some a =>
    rw [deactivate_of_active ha]
    refine ⟨Nat.le_succ _, fun y hy => ?_⟩
    obtain ⟨x, hx, hgeneration, hpass, hraised⟩ := held_of_mem_raised hy
    exact Or.inr ⟨x, hx, hgeneration, fun h => ⟨hraised (Or.inr h.1), hpass ▸ h.2⟩⟩

/-- A pass that is doomed sees the signal before it gets to a candidate. -/
theorem onward_advance (e : Engine) (i : Nat) : Onward e (e.advance i) := by
  unfold advance
  split
  · next x hx =>
    refine ⟨(generation_put ..).ge, fun y hy => ?_⟩
    rcases mem_held_put hy with hy | ⟨pass, hpass, rfl⟩
    · exact Or.inr ⟨y, hy, rfl, id⟩
    · refine Or.inr ⟨x, List.mem_of_getElem? hx, rfl, fun h => ⟨h.1, ?_⟩⟩
      rw [h.1] at hpass
      exact Pass.atPoll_of_step h.2 hpass
  · exact Onward.refl e

/-- The pass of a new activation has a generation of its own. -/
theorem onward_bootstrapWith (e : Engine) (ids : List Nat) (gate : Option Pass.Gate) :
    Onward e (e.bootstrapWith ids gate) := by
  unfold bootstrapWith
  dsimp only
  split
  · exact Onward.of_subset (Nat.le_succ _) (List.Subset.refl _)
  · refine ⟨Nat.le_succ _, fun y hy => ?_⟩
    rcases List.mem_append.1 hy with hold | hnew
    · exact Or.inr ⟨y, hold, rfl, id⟩
    · obtain rfl := List.mem_singleton.1 hnew
      exact Or.inl (Nat.lt_succ_self _)
  · exact Onward.of_subset (Nat.le_succ _) (List.Subset.refl _)

theorem onward_activate (e : Engine) : Onward e e.activate.1 := by
  have hsame : ∀ {e' : Engine}, e'.generation = e.generation → e'.held = e.held → Onward e e' := by
    intro e' hgeneration hheld
    apply Onward.of_subset (Nat.le_of_eq hgeneration.symm)
    rw [hheld]
    exact List.Subset.refl _
  unfold activate
  split
  · exact Onward.refl e
  split
  · exact Onward.refl e
  split
  · exact Onward.refl e
  split
  · exact hsame rfl rfl
  · show Onward e (bootstrapWith _ _ _)
    refine Onward.trans ?_ (onward_bootstrapWith _ _ _)
    exact hsame rfl rfl

theorem onward_undergo (e : Engine) (event : Event) : Onward e (e.undergo event) := by
  cases event with
  | move m =>
    cases m with
    | activate gate =>
      have hgate : Onward e { e with gate } :=
        Onward.of_subset (Nat.le_refl _) (List.Subset.refl _)
      exact hgate.trans (onward_activate { e with gate })
    | deactivate order => exact onward_deactivate e order
    | advance i => exact onward_advance e i
    | transact orders edits => exact Onward.of_subset (Nat.le_refl _) (List.Subset.refl _)
  | shutdown order => exact onward_deactivate e order
  | failReads on => exact Onward.of_subset (Nat.le_refl _) (List.Subset.refl _)
  | refuse on => exact Onward.of_subset (Nat.le_refl _) (List.Subset.refl _)
  | grant quota => exact Onward.of_subset (Nat.le_refl _) (List.Subset.refl _)

theorem onward_foldl (e : Engine) (events : List Event) : Onward e (events.foldl undergo e) := by
  induction events generalizing e with
  | nil => exact Onward.refl e
  | cons event events ih => exact (onward_undergo e event).trans (ih (e.undergo event))

/-! ## Stragglers -/

inductive Event.Stops : Event → Prop where
  | deactivate (order : Arrangement Catalog.Entry) : Stops (.move (.deactivate order))
  | shutdown (order : Arrangement Catalog.Entry) : Stops (.shutdown order)

/-- What is held of the current activation when it ends, before a query or before a poll, is doomed ever
after. -/
theorem doomed_later (h : e.Orderly settings) {stop : Event} (hstop : stop.Stops)
    (hheld : ∀ x ∈ e.held, x.generation = e.generation → x.pass.AtPoll)
    (later : List Event) {y : Held} (hy : y ∈ ((stop :: later).foldl undergo e).held)
    (hcurrent : y.generation = e.generation) :
    y.generation < ((stop :: later).foldl undergo e).generation ∧ y.Doomed := by
  obtain ⟨order, hundergo⟩ : ∃ order, e.undergo stop = e.deactivate order := by
    cases hstop with
    | deactivate order => exact ⟨order, rfl⟩
    | shutdown order => exact ⟨order, rfl⟩
  rw [List.foldl_cons, hundergo] at hy ⊢
  have honward := onward_foldl (e.deactivate order) later
  cases ha : e.active with
  | none =>
    -- an inactive engine holds nothing of the current generation
    rw [deactivate_of_inactive ha] at honward hy
    rcases honward.held y hy with hlater | ⟨x, hx, hgeneration, -⟩
    · omega
    · exact absurd (hgeneration.symm.trans hcurrent) ((h.off ha).resting.outdated x hx)
  | some a =>
    have hnext : (e.deactivate order).generation = e.generation + 1 := by
      rw [deactivate_of_active ha]
    have hle := honward.generation_le
    rcases honward.held y hy with hlater | ⟨x, hx, hgeneration, hdoomed⟩
    · omega
    · rw [deactivate_of_active ha] at hx
      obtain ⟨x₀, hx₀, hgeneration₀, hpass₀, hraised₀⟩ := held_of_mem_raised hx
      have hown : x₀.generation = e.generation := by
        rw [← hgeneration₀, ← hgeneration, hcurrent]
      refine ⟨by omega, hdoomed ⟨hraised₀ (Or.inl ?_), hpass₀ ▸ hheld x₀ hx₀ hown⟩⟩
      rw [hown, (h.on a ha).current]

/-- A pass that has been told to stop leaves the engine as it is. -/
theorem resume_of_stopped {x : Held} (h : x.Doomed) (hold : x.generation ≠ e.generation) :
    e.resume x = e := by
  have hresume : e.resume x =
      let result := x.pass.finish e.repository (fun _ => x.signal.raised) e.catalog
      { e with
        catalog := result.1
        bootstrap := if x.generation = e.generation then .ofResult result.2 else e.bootstrap } := rfl
  simp only [hresume, h.1, Pass.finish_stopped h.2, if_neg hold]

/-- Nor does a step of it change anything about the engine but the passes that are held. -/
theorem advance_of_stopped {i : Nat} {x : Held} (hx : e.held[i]? = some x) (h : x.Doomed)
    (hold : x.generation ≠ e.generation) : ∃ held, e.advance i = { e with held } := by
  have hcatalog : (x.pass.step e.repository (fun _ => x.signal.raised) e.catalog).1 = e.catalog := by
    rw [Pass.step_fst, Pass.candidate?_of_atPoll h.2]
  rw [advance, hx]
  dsimp only
  generalize x.pass.step e.repository (fun _ => x.signal.raised) e.catalog = t at hcatalog
  obtain ⟨c, progress⟩ := t
  obtain rfl : c = e.catalog := hcatalog
  cases progress with
  | held pass => exact ⟨_, rfl⟩
  | ended result =>
    rw [put, if_neg hold]
    exact ⟨_, rfl⟩
  | crashed => exact ⟨_, rfl⟩

/-- Let an engine have any life in which its activation ends while the first pass is held before a
query or before a poll, and let the pass run to its end at any later time. Then nothing about the
engine changes but that the pass is no longer held, and the pass has met no candidate since. It
would be the same whatever the pass had found when it was held. If the pass takes a step only then
again nothing changes but the passes that are held. -/
theorem straggler_leaves_no_trace (settings : Settings) (before : List Event) {stop : Event}
    (hstop : stop.Stops)
    (hheld : ∀ x ∈ (after settings before).held,
      x.generation = (after settings before).generation → x.pass.AtPoll)
    (later : List Event) {i : Nat} {y : Held}
    (hy : (after settings (before ++ stop :: later)).held[i]? = some y)
    (hcurrent : y.generation = (after settings before).generation) :
    let e := after settings (before ++ stop :: later)
    e.complete i = { e with held := e.held.eraseIdx i } ∧
    (∀ report, (y.pass.finish e.repository (fun _ => y.signal.raised) e.catalog).2 = .ok report →
      report.total = y.pass.report.total) ∧
    (∀ pass : Pass, pass.AtPoll → e.resume { y with pass } = e) ∧
    ∃ held, e.advance i = { e with held } := by
  intro e
  have hsplit : e = (stop :: later).foldl undergo (after settings before) := List.foldl_append
  obtain ⟨hlt, hdoomed⟩ := doomed_later (orderly_after settings before) hstop hheld later
    (hsplit ▸ List.mem_of_getElem? hy) hcurrent
  rw [← hsplit] at hlt
  have hold : y.generation ≠ e.generation := Nat.ne_of_lt hlt
  refine ⟨?_, ?_, ?_, advance_of_stopped hy hdoomed hold⟩
  · rw [complete, hy]
    exact resume_of_stopped (e := { e with held := e.held.eraseIdx i }) hdoomed hold
  · intro report hend
    rw [hdoomed.1] at hend
    exact Pass.total_finish_stopped hdoomed.2 hend
  · intro pass hpass
    exact resume_of_stopped (x := { y with pass }) ⟨hdoomed.1, hpass⟩ hold

/-- A first pass is held before its queries when the engine is shut down. It searches when the engine is
active again, with another first pass held and a mapping registered. It goes on then. -/
theorem straggler_leaves_no_trace_reactivated :
    let settings := Settings.enabledFor ["/content"]
    let orders := fun _ : Nat => Arrangement.asListed
    let before := [Event.move (.transact orders [.declare (.ofString "/content/a") "/s" false false]),
      .move (.activate (some .query))]
    let later := [Event.move (.activate (some (.poll 0))), .move (.advance 0),
      .move (.transact orders [.declare (.ofString "/content/b") "/t" false false])]
    let e := after settings (before ++ .shutdown .asListed :: later)
    e.held.length = 2 ∧ e.catalog.size = 1 ∧ e.isPending = true ∧
      e.complete 0 = { e with held := e.held.eraseIdx 0 } := by
  intro settings orders before later e
  have hheld : e.held[0]?.isSome = true := by decide
  obtain ⟨y, hy⟩ := Option.isSome_iff_exists.1 hheld
  have hcurrent : ∀ y ∈ e.held[0]?, y.generation = (after settings before).generation := by decide
  obtain ⟨hsame, -⟩ := straggler_leaves_no_trace settings before (.shutdown .asListed) (by decide)
    later hy (hcurrent y hy)
  exact ⟨by decide, by decide, by decide, hsame⟩

end Engine

end Graft
