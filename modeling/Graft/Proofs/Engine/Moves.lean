import Graft.Engine
import Graft.Proofs.Engine.Passes
import Mathlib.Data.List.Perm.Basic
import Mathlib.Logic.Function.Iterate

/-!
# Moves of an engine

What can happen to an engine and to its repository, in any order: activation, deactivation,
transactions, and steps of the passes that are held. A held pass takes one step at a time
(`advance`), so between any two places of a pass there is room for everything else. To let a pass run
to its end is to advance it often enough (`complete_eq_iterate`), and to release all held passes is
to complete the first one again and again (`release_eq`).
-/

namespace Graft.Engine

variable {e : Engine} {a : Activation} {i : Nat} {x : Held} {t : Catalog × Pass.Progress}

/-! ## Steps of held passes -/

/-- The engine when its `i`-th held pass, which is `x`, has got so far. -/
def put (e : Engine) (i : Nat) (x : Held) : Catalog × Pass.Progress → Engine
  | (catalog, .held pass) => { e with catalog, held := e.held.set i { x with pass } }
  | (catalog, .ended result) =>
    { e with
      catalog
      bootstrap := if x.generation = e.generation then .ofResult result else e.bootstrap
      held := e.held.eraseIdx i }
  | (catalog, .crashed) => { e with catalog, held := e.held.eraseIdx i }

def advance (e : Engine) (i : Nat) : Engine :=
  match e.held[i]? with
  | some x => e.put i x (x.pass.step e.repository (fun _ => x.signal.raised) e.catalog)
  | none => e

def complete (e : Engine) (i : Nat) : Engine :=
  match e.held[i]? with
  | some x => { e with held := e.held.eraseIdx i }.resume x
  | none => e

/-- Releasing all held passes is completing the first one again and again. -/
theorem release_eq (e : Engine) : e.release = e.held.foldl (fun e _ => e.complete 0) e := by
  have hfold : ∀ (held : List Held) (e : Engine),
      held.foldl resume { e with held := [] } =
        held.foldl (fun e _ => e.complete 0) { e with held } := by
    intro held
    induction held with
    | nil => exact fun _ => rfl
    | cons h held ih => exact fun e => ih (e.resume h)
  exact hfold e.held e

section Put

variable (e i x t)

@[simp] theorem settings_put : (e.put i x t).settings = e.settings := by
  obtain ⟨c, progress⟩ := t
  cases progress <;> rfl

@[simp] theorem repository_put : (e.put i x t).repository = e.repository := by
  obtain ⟨c, progress⟩ := t
  cases progress <;> rfl

@[simp] theorem catalog_put : (e.put i x t).catalog = t.1 := by
  obtain ⟨c, progress⟩ := t
  cases progress <;> rfl

@[simp] theorem active_put : (e.put i x t).active = e.active := by
  obtain ⟨c, progress⟩ := t
  cases progress <;> rfl

@[simp] theorem generation_put : (e.put i x t).generation = e.generation := by
  obtain ⟨c, progress⟩ := t
  cases progress <;> rfl

@[simp] theorem quota_put : (e.put i x t).quota = e.quota := by
  obtain ⟨c, progress⟩ := t
  cases progress <;> rfl

theorem bootstrap_put : (e.put i x t).bootstrap =
    match t.2 with
    | .ended result => if x.generation = e.generation then .ofResult result else e.bootstrap
    | .held _ | .crashed => e.bootstrap := by
  obtain ⟨c, progress⟩ := t
  cases progress <;> rfl

end Put

theorem mem_held_put {y : Held} (hy : y ∈ (e.put i x t).held) :
    y ∈ e.held ∨ ∃ pass, t.2 = .held pass ∧ y = { x with pass } := by
  obtain ⟨c, progress⟩ := t
  cases progress with
  | held pass =>
    rcases List.mem_or_eq_of_mem_set hy with hold | rfl
    · exact Or.inl hold
    · exact Or.inr ⟨pass, rfl, rfl⟩
  | ended result => exact Or.inl (List.mem_of_mem_eraseIdx hy)
  | crashed => exact Or.inl (List.mem_of_mem_eraseIdx hy)

theorem forall_held_put {P : Held → Prop} (hold : ∀ y ∈ e.held, P y)
    (hnew : ∀ pass, t.2 = .held pass → P { x with pass }) : ∀ y ∈ (e.put i x t).held, P y := by
  intro y hy
  rcases mem_held_put hy with hy | ⟨pass, hpass, rfl⟩
  · exact hold y hy
  · exact hnew pass hpass

theorem mem_held_put_of_ne (hx : e.held[i]? = some x) {y : Held} (hy : y ∈ e.held) (hne : y ≠ x) :
    y ∈ (e.put i x t).held := by
  obtain ⟨hi, rfl⟩ := List.getElem?_eq_some_iff.1 hx
  have hrest : y ∈ e.held.eraseIdx i :=
    (List.mem_cons.1 ((List.getElem_cons_eraseIdx_perm hi).mem_iff.2 hy)).resolve_left hne
  obtain ⟨c, progress⟩ := t
  cases progress with
  | held pass =>
    have hset : (e.held.set i { e.held[i] with pass }).eraseIdx i = e.held.eraseIdx i :=
      List.eraseIdx_set_eq
    exact List.mem_of_mem_eraseIdx (hset ▸ hrest)
  | ended result => exact hrest
  | crashed => exact hrest

/-- A pass keeps the generation in which it was begun. -/
theorem generations_put (hx : e.held[i]? = some x) :
    ((e.put i x t).held.map (·.generation)).Sublist (e.held.map (·.generation)) := by
  obtain ⟨hi, rfl⟩ := List.getElem?_eq_some_iff.1 hx
  obtain ⟨c, progress⟩ := t
  cases progress with
  | held pass =>
    have hsame : (e.held.set i { e.held[i] with pass }).map (·.generation) =
        e.held.map (·.generation) := by
      have hself := List.set_getElem_self (by simpa : i < (e.held.map (·.generation)).length)
      rw [List.getElem_map] at hself
      rw [List.map_set]
      exact hself
    exact hsame ▸ List.Sublist.refl _
  | ended result => exact (List.eraseIdx_sublist _ _).map _
  | crashed => exact (List.eraseIdx_sublist _ _).map _

/-- What holds of an inactive engine. -/
structure Resting (e : Engine) : Prop where
  idle : e.bootstrap = .idle
  isSealed : e.catalog.isSealed = true
  empty : e.catalog.visible = .empty
  unsubscribed : e.repository.subscriptions = []
  outdated : ∀ h ∈ e.held, h.generation ≠ e.generation

theorem Resting.put (h : e.Resting) (hx : x ∈ e.held) (hcatalog : t.1 = e.catalog) :
    (e.put i x t).Resting where
  idle := by
    rw [bootstrap_put]
    split
    · exact (if_neg (h.outdated x hx)).trans h.idle
    · exact h.idle
    · exact h.idle
  isSealed := by
    rw [catalog_put, hcatalog]
    exact h.isSealed
  empty := by
    rw [catalog_put, hcatalog]
    exact h.empty
  unsubscribed := by
    rw [repository_put]
    exact h.unsubscribed
  outdated := by
    rw [generation_put]
    exact forall_held_put h.outdated fun pass _ => h.outdated x hx

theorem put_put {c : Catalog} {pass : Pass} :
    (e.put i x (c, .held pass)).put i { x with pass } t = e.put i x t := by
  obtain ⟨c', progress⟩ := t
  cases progress with
  | held pass' => simp only [put, List.set_set]
  | ended result =>
    simp only [put, List.eraseIdx_set_eq]
    rfl
  | crashed => simp only [put, List.eraseIdx_set_eq]

theorem put_self (hx : e.held[i]? = some x) : e.put i x (e.catalog, .held x.pass) = e := by
  obtain ⟨hi, rfl⟩ := List.getElem?_eq_some_iff.1 hx
  show { e with held := e.held.set i e.held[i] } = e
  rw [List.set_getElem_self]

/-- Steps of a pass are advances of the engine that holds it. -/
theorem put_eq_iterate {s : Catalog × Pass.Progress} {c : Catalog} {pass : Pass}
    (h : Pass.Leads e.repository (fun _ => x.signal.raised) s t) (hs : s = (c, .held pass))
    (hi : i < e.held.length) :
    ∃ n, e.put i x t = (fun e => e.advance i)^[n] (e.put i x (c, .held pass)) := by
  induction h generalizing c pass with
  | refl s => exact ⟨0, by rw [hs]; rfl⟩
  | @step c₀ pass₀ t hleads ih =>
    obtain ⟨rfl, hpass⟩ := Prod.mk.inj hs
    obtain rfl := Pass.Progress.held.inj hpass
    have hstep : (e.put i x (c₀, .held pass₀)).advance i =
        e.put i x (pass₀.step e.repository (fun _ => x.signal.raised) c₀) := by
      have hget : (e.put i x (c₀, .held pass₀)).held[i]? = some { x with pass := pass₀ } := by
        show (e.held.set i _)[i]? = _
        rw [List.getElem?_set_self hi]
      rw [advance, hget]
      exact put_put
    cases hnext : pass₀.step e.repository (fun _ => x.signal.raised) c₀ with
    | mk c₁ progress =>
      rw [hnext] at hleads hstep ih
      cases progress with
      | held pass₁ =>
        obtain ⟨n, hn⟩ := ih rfl
        exact ⟨n + 1, by rw [hn, Function.iterate_succ_apply, hstep]⟩
      | ended result =>
        cases hleads
        exact ⟨1, hstep.symm⟩
      | crashed =>
        cases hleads
        exact ⟨1, hstep.symm⟩

/-- To complete a pass is to advance it some number of times. -/
theorem complete_eq_iterate (e : Engine) (i : Nat) :
    ∃ n, e.complete i = (fun e => e.advance i)^[n] e := by
  cases hx : e.held[i]? with
  | none => exact ⟨0, by rw [complete, hx]; rfl⟩
  | some x =>
    have hfinish := Pass.leads_finish e.repository (fun _ => x.signal.raised) e.catalog x.pass
    obtain ⟨n, hn⟩ := put_eq_iterate hfinish rfl (List.getElem?_eq_some_iff.1 hx).1
    rw [put_self hx] at hn
    exact ⟨n, by rw [complete, hx, ← hn]; rfl⟩

/-! ## Moves -/

inductive Move where
  /-- The engine is activated; the first pass is held at the gate, if there is one. -/
  | activate (gate : Option Pass.Gate)
  | deactivate (order : Arrangement Catalog.Entry)
  | advance (i : Nat)
  | transact (orders : Nat → Arrangement (Path × Action)) (edits : List Edit)

def move (e : Engine) : Move → Engine
  | .activate gate => { e with gate }.activate.1
  | .deactivate order => e.deactivate order
  | .advance i => e.advance i
  | .transact orders edits => (e.transact orders edits).1

theorem transact_of_unsubscribed (h : e.repository.subscriptions = [])
    (orders : Nat → Arrangement (Path × Action)) (edits : List Edit) :
    (e.transact orders edits).1 = { e with repository := (e.repository.transact edits).1 } := by
  simp only [transact, Repository.transact, Repository.deliveries, h, List.map_nil, List.filter_nil]
  rfl

theorem deactivate_of_inactive (ha : e.active = none) (order : Arrangement Catalog.Entry) :
    e.deactivate order = e := by
  simp only [deactivate, shutdown, ha]

theorem deactivate_of_active (ha : e.active = some a) (order : Arrangement Catalog.Entry) :
    e.deactivate order =
      { e with
        repository := (a.subscriptions.foldl Repository.unsubscribe e.repository).close
        catalog := (e.catalog.close.clear order).1
        active := none
        bootstrap := .idle
        generation := e.generation + 1
        held := e.held.map fun x =>
          if x.generation = a.generation then { x with signal := x.signal.raise } else x } := by
  simp only [deactivate, shutdown, ha]

/-- A deactivation tells held passes to stop and takes none away or further. -/
theorem held_of_mem_raised {held : List Held} {n : Nat} {y : Held}
    (hy : y ∈ held.map fun x =>
      if x.generation = n then { x with signal := x.signal.raise } else x) :
    ∃ x ∈ held, y.generation = x.generation ∧ y.pass = x.pass ∧
      (x.generation = n ∨ x.signal.raised = true → y.signal.raised = true) := by
  obtain ⟨x, hx, rfl⟩ := List.mem_map.1 hy
  refine ⟨x, hx, ?_⟩
  split
  · exact ⟨rfl, rfl, fun _ => rfl⟩
  · next hne => exact ⟨rfl, rfl, fun h => h.resolve_left hne⟩

theorem activate_of_active (ha : e.active = some a) : e.activate.1 = e := by
  simp only [activate, ha, Option.isSome_some, Bool.true_or, if_true]

end Graft.Engine
