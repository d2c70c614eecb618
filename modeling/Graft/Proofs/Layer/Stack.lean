import Graft.Session.Run
import Mathlib.Logic.Function.Iterate

/-!
# Mapped layers on mapped layers

What a mapped layer does not show is asked of the layer beneath it. If this is a mapped layer over
the same catalog and the same repository, it shows nothing either, and asks on. So a stack of mapped
layers is as good as one of them.

The layers of a stack share one catalog and one repository, which may be others from one call to the
next, also by what the layer at the bottom does. They are the state, the `World`, in which a call is
carried out (`Layer.live`).
-/

namespace Graft

namespace Layer

/-! ## Calls -/

inductive Call where
  | resolve (path : Path)
  | list (content : Content)
  | create (path : Path) (properties : Properties)
  | delete (path : Path)
  | revert
  | commit
  | hasChanges

def Call.Answer : Call → Type
  | resolve _ => Option Content
  | list _ => List Content
  | create _ _ => Except WriteError Content
  | delete _ => Except WriteError Unit
  | revert => Unit
  | commit => Except WriteError Unit
  | hasChanges => Bool

def Call.isRead : Call → Bool
  | resolve _ | list _ => true
  | create .. | delete _ | revert | commit | hasChanges => false

section Calls

variable {m : Type → Type}

def ask (layer : Layer m) : (call : Call) → m call.Answer
  | .resolve p => layer.resolve p
  | .list content => layer.list content
  | .create p properties => layer.create p properties
  | .delete p => layer.delete p
  | .revert => layer.revert
  | .commit => layer.commit
  | .hasChanges => layer.hasChanges

def answering (answer : (call : Call) → m call.Answer) : Layer m where
  resolve p := answer (.resolve p)
  list content := answer (.list content)
  create p properties := answer (.create p properties)
  delete p := answer (.delete p)
  revert := answer .revert
  commit := answer .commit
  hasChanges := answer .hasChanges

@[simp]
theorem ask_answering (answer : (call : Call) → m call.Answer) (call : Call) :
    (answering answer).ask call = answer call := by
  cases call <;> rfl

@[simp]
theorem answering_ask (layer : Layer m) : answering layer.ask = layer := rfl

/-- There is nothing to a layer but its answers. -/
theorem eq_of_ask {layer layer' : Layer m} (h : ∀ call, layer.ask call = layer'.ask call) :
    layer = layer' := by
  have hask : layer.ask = layer'.ask := funext h
  rw [← answering_ask layer, hask, answering_ask]

def askEach [Monad m] (layer : Layer m) (calls : List Call) :
    m (List (Σ call : Call, call.Answer)) :=
  calls.mapM fun call => Sigma.mk call <$> layer.ask call

end Calls

/-! ## The world of a stack -/

/-- What the layers of a stack share. The board is the catalog's. -/
structure World where
  catalog : Catalog
  repository : Repository

/-- What a mapped layer answers by itself. -/
def World.answer? (w : World) : (call : Call) → Option call.Answer
  | .resolve p => (w.repository.shownAt w.catalog p).map some
  | .list (.shown path mapped _) => some (w.repository.shownBelow path mapped)
  | .list (.stored _) => none
  | .create .. | .delete _ | .revert | .commit | .hasChanges => none

theorem World.answer?_of_not_read (w : World) {call : Call} (h : call.isRead = false) :
    w.answer? call = none := by
  cases call with
  | resolve | list => cases h
  | create | delete | revert | commit | hasChanges => rfl

def World.passes (w : World) (call : Call) : Bool := (w.answer? call).isNone

section Stack

variable {m : Type → Type} [Monad m]

theorem ask_mapped (w : World) (beneath : Layer m) (call : Call) :
    (mapped w.catalog w.repository beneath).ask call =
      match w.answer? call with
      | some answer => pure answer
      | none => beneath.ask call := by
  cases call with
  | resolve p =>
    simp only [ask, mapped, World.answer?]
    cases w.repository.shownAt w.catalog p with
    | none => rfl
    | some content => rfl
  | list content =>
    cases content with
    | stored node => rfl
    | shown path mapped node => rfl
  | create | delete | revert | commit | hasChanges => rfl

theorem mapped_mapped (c : Catalog) (r : Repository) (beneath : Layer m) :
    mapped c r (mapped c r beneath) = mapped c r beneath := by
  apply eq_of_ask
  intro call
  rw [ask_mapped ⟨c, r⟩, ask_mapped ⟨c, r⟩]
  split
  · rfl
  · rfl

/-- The mapped layer over the catalog and the repository as they are when it is called. -/
def live (beneath : Layer (StateT World m)) : Layer (StateT World m) :=
  answering fun call => do
    let w ← get
    (mapped w.catalog w.repository beneath).ask call

def stack (n : Nat) (base : Layer (StateT World m)) : Layer (StateT World m) := live^[n] base

/-- A layer that has nothing to do with the world of the layers above. -/
def apart (layer : Layer m) : Layer (StateT World m) := answering fun call => layer.ask call

def journaled (layer : Layer m) : Layer (StateT (List Call) m) :=
  answering fun call => do
    modify (· ++ [call])
    layer.ask call

/-- Where a second application changes nothing, no further one does. -/
theorem iterate_eq_of_twice {α : Type _} {f : α → α} (h : ∀ a, f (f a) = f a) {n : Nat}
    (hn : 1 ≤ n) (a : α) : f^[n] a = f a := by
  obtain ⟨k, rfl⟩ := Nat.exists_eq_add_of_le' hn
  rw [Function.iterate_succ_apply, Function.iterate_fixed (h a)]

variable [LawfulMonad m]

/-- A mapped layer answers by itself and leaves the world as it is, or leaves the call to the layer
beneath. -/
theorem run_ask_live (beneath : Layer (StateT World m)) (call : Call) (w : World) :
    ((live beneath).ask call).run w =
      match w.answer? call with
      | some answer => pure (answer, w)
      | none => (beneath.ask call).run w := by
  rw [live, ask_answering, StateT.run_bind, StateT.run_get, pure_bind, ask_mapped]
  cases w.answer? call with
  | none => rfl
  | some answer => rfl

theorem live_live (base : Layer (StateT World m)) : live (live base) = live base := by
  apply eq_of_ask
  intro call
  apply StateT.ext
  intro w
  rw [run_ask_live, run_ask_live]
  split
  · rfl
  · rfl

/-- What no mapped layer answers by itself is left to the layer beneath. -/
theorem ask_live_of_answer?_eq_none (beneath : Layer (StateT World m)) {call : Call}
    (h : ∀ w : World, w.answer? call = none) : (live beneath).ask call = beneath.ask call := by
  apply StateT.ext
  intro w
  rw [run_ask_live, h]

theorem run_resolve_live_bottom (p : Path) (w : World) :
    ((live (bottom : Layer (StateT World m))).resolve p).run w =
      pure (w.repository.shownAt w.catalog p, w) := by
  refine (run_ask_live bottom (.resolve p) w).trans ?_
  rw [World.answer?]
  cases w.repository.shownAt w.catalog p with
  | none => rfl
  | some content => rfl

/-! ## Over a layer that stays apart -/

theorem run_ask_live_apart (layer : Layer m) (call : Call) (w : World) :
    ((live (apart layer)).ask call).run w =
      (·, w) <$> (mapped w.catalog w.repository layer).ask call := by
  rw [run_ask_live, ask_mapped, apart, ask_answering]
  cases w.answer? call with
  | none => exact (map_eq_pure_bind _ _).symm
  | some answer => rw [map_pure]

theorem run_askEach_live_apart (layer : Layer m) (calls : List Call) (w : World) :
    ((live (apart layer)).askEach calls).run w =
      (·, w) <$> (mapped w.catalog w.repository layer).askEach calls := by
  induction calls with
  | nil =>
    simp only [askEach, List.mapM_nil, map_pure]
    rfl
  | cons call calls ih =>
    simp only [askEach] at ih
    simp only [askEach, List.mapM_cons, StateT.run_bind, StateT.run_pure,
      run_ask_live_apart, ih, map_bind, bind_map_left, map_pure]

theorem run_ask_mapped_journaled (w : World) (layer : Layer m) (call : Call) (log : List Call) :
    ((mapped w.catalog w.repository (journaled layer)).ask call).run log =
      (·, log ++ [call].filter w.passes) <$> (mapped w.catalog w.repository layer).ask call := by
  rw [ask_mapped, ask_mapped, journaled, ask_answering]
  cases hanswer : w.answer? call with
  | none =>
    have hpasses : w.passes call = true := by simp [World.passes, hanswer]
    rw [List.filter_cons_of_pos hpasses, List.filter_nil, map_eq_pure_bind, StateT.run_bind,
      StateT.run_modify, pure_bind]
    rfl
  | some answer =>
    have hpasses : ¬ w.passes call = true := by simp [World.passes, hanswer]
    rw [List.filter_cons_of_neg hpasses, List.filter_nil, List.append_nil, map_pure]
    rfl

/-- The calls that a mapped layer hands on reach the layer beneath in order, each of them once. -/
theorem run_askEach_mapped_journaled (w : World) (layer : Layer m) (calls : List Call)
    (log : List Call) :
    ((mapped w.catalog w.repository (journaled layer)).askEach calls).run log =
      (·, log ++ calls.filter w.passes) <$>
        (mapped w.catalog w.repository layer).askEach calls := by
  induction calls generalizing log with
  | nil =>
    simp only [askEach, List.mapM_nil, map_pure, List.filter_nil, List.append_nil]
    rfl
  | cons call calls ih =>
    rw [← List.singleton_append, List.filter_append, ← List.append_assoc]
    simp only [askEach] at ih
    simp only [askEach, List.singleton_append, List.mapM_cons, StateT.run_bind, StateT.run_pure,
      run_ask_mapped_journaled, ih, map_bind, bind_map_left, map_pure]

/-! ## Stacks -/

/-- A stack of mapped layers over one catalog and one repository does what a single one of them
does.

This is so while the catalog and the repository stay as they are, and also if they are others from
call to call: then each call is answered by the layers, which leave the world as it is, or it is
left to the layer at the bottom. All calls that are not for content are left to it.

If the layer at the bottom has nothing to do with the catalog and the repository, they stay as they
are whatever is asked, in any order. It gets to know the calls that are left to it as they were
made, each of them once. If there is none, writes are refused, and there is nothing to commit. -/
theorem stack_behaves_as_one {n : Nat} (hn : 1 ≤ n) :
    (∀ (c : Catalog) (r : Repository) (beneath : Layer m),
      (mapped c r)^[n] beneath = mapped c r beneath) ∧
    (∀ base : Layer (StateT World m), stack n base = live base ∧
      (∀ call w, ((stack n base).ask call).run w =
        match w.answer? call with
        | some answer => pure (answer, w)
        | none => (base.ask call).run w) ∧
      ∀ call : Call, call.isRead = false → (stack n base).ask call = base.ask call) ∧
    (∀ (layer : Layer m) (calls : List Call) (w : World) (log : List Call),
      (((stack n (apart (journaled layer))).askEach calls).run w).run log =
        (fun answers => ((answers, w), log ++ calls.filter w.passes)) <$>
          (mapped w.catalog w.repository layer).askEach calls) ∧
    (∀ (w : World) (call : Call), call.isRead = false → w.passes call = true) ∧
    let alone := stack n (bottom : Layer (StateT World m))
    (∀ p w, (alone.resolve p).run w = pure (w.repository.shownAt w.catalog p, w)) ∧
      (∀ node, alone.list (.stored node) = pure []) ∧
      (∀ p properties, alone.create p properties = pure (.error (.readOnly p))) ∧
      (∀ p, alone.delete p = pure (.error (.readOnly p))) ∧
      alone.revert = pure () ∧ alone.commit = pure (.ok ()) ∧ alone.hasChanges = pure false := by
  have hstack : ∀ (m : Type → Type) [Monad m] [LawfulMonad m] (base : Layer (StateT World m)),
      stack n base = live base := fun m _ _ => iterate_eq_of_twice live_live hn
  refine ⟨fun c r => iterate_eq_of_twice (mapped_mapped c r) hn, ?_, ?_, ?_, ?_⟩
  · intro base
    rw [hstack]
    exact ⟨rfl, run_ask_live base, fun call hcall =>
      ask_live_of_answer?_eq_none base fun w => w.answer?_of_not_read hcall⟩
  · intro layer calls w log
    rw [hstack, run_askEach_live_apart, StateT.run_map, run_askEach_mapped_journaled,
      Functor.map_map]
  · intro w call hcall
    rw [World.passes, w.answer?_of_not_read hcall]
    rfl
  · intro alone
    have halone : alone = live bottom := hstack m bottom
    have hleft : ∀ call : Call, (∀ w : World, w.answer? call = none) →
        alone.ask call = bottom.ask call := by
      intro call hcall
      rw [halone, ask_live_of_answer?_eq_none bottom hcall]
    refine ⟨?_, fun node => hleft (.list (.stored node)) fun _ => rfl,
      fun p properties => hleft (.create p properties) fun _ => rfl,
      fun p => hleft (.delete p) fun _ => rfl, hleft .revert fun _ => rfl,
      hleft .commit fun _ => rfl, hleft .hasChanges fun _ => rfl⟩
    intro p w
    rw [halone, run_resolve_live_bottom]

/-- Of three layers the first answers what a mapping shows, and only the rest gets to the bottom. -/
theorem stack_behaves_as_one_three :
    let declaration : Declaration := ⟨.ofString "/a", some "/x", false, false⟩
    let w : World := ⟨(Catalog.empty.register declaration).1,
      (Repository.empty.transact [.addNode (.ofString "/x/b")]).1⟩
    let calls : List Call := [.resolve (.ofString "/a/b"), .create (.ofString "/a/c") .empty,
      .resolve (.ofString "/a/c"), .commit]
    let base : Layer Id := ofRepository w.repository
    (((stack 3 (apart (journaled base))).askEach calls).run w).run [] =
      (([⟨.resolve (.ofString "/a/b"),
            some (.shown (.ofString "/a/b") (.ofString "/x/b") ⟨.ofString "/x/b", .empty⟩)⟩,
          ⟨.create (.ofString "/a/c") .empty, .error (.readOnly (.ofString "/a/c"))⟩,
          ⟨.resolve (.ofString "/a/c"), none⟩, ⟨.commit, .ok ()⟩], w),
        [.create (.ofString "/a/c") .empty, .resolve (.ofString "/a/c"), .commit]) := by
  intro declaration w calls base
  obtain ⟨-, -, hjournal, -⟩ := stack_behaves_as_one (m := Id) (n := 3) (by decide)
  exact (hjournal base calls w []).trans rfl

end Stack

end Layer

/-! ## In a session -/

namespace Session

/-- Between the mapped layer and the repository a second mapped layer makes no difference. -/
theorem layer?_another (s : Session) (throughEngine : Bool) :
    s.layer? .another throughEngine = s.layer? .repository throughEngine := by
  simp only [layer?, beneath, Engine.layer?, Layer.mapped_mapped]

/-- Whatever is asked of a layer, the repository, the catalog and its board stay as they are. -/
theorem engine_step_layer (s : Session) (base : Beneath) (throughEngine : Bool)
    (request : Request) : (s.step (.layer base throughEngine request)).1.engine = s.engine := by
  have hanswer : (s.answerPlain (.layer base throughEngine request)).1.engine = s.engine := by
    rw [answerPlain]
    cases s.layer? base throughEngine with
    | none => rfl
    | some layer => rfl
  exact hanswer

end Session

end Graft
