import Graft.Proofs.Catalog.Views

/-!
# Histories of a catalog

The writing operations of a catalog as data, so that "after any sequence of operations" can be
quantified over. Clearing empties the slots in whatever order they come; a history says for each
clearing which order that is.

`play` runs any machine over a list of operations. An invariant of the two moves of a catalog is an
invariant of its histories (`Stable.keeps_after`), and two machines in step stay in step
(`play_simulation`).
-/

namespace Graft

section Play

variable {σ τ ω ρ : Type} {step : σ → ω → σ × ρ} {step' : τ → ω → τ × ρ}

/-- Runs a machine over some operations: the state it ends in and its replies, in order. -/
def play (step : σ → ω → σ × ρ) : σ → List ω → σ × List ρ
  | s, [] => (s, [])
  | s, op :: ops =>
    let (next, reply) := step s op
    let (last, replies) := play step next ops
    (last, reply :: replies)

theorem play_cons (s : σ) (op : ω) (ops : List ω) : play step s (op :: ops) =
    ((play step (step s op).1 ops).1, (step s op).2 :: (play step (step s op).1 ops).2) := rfl

theorem play_append (s : σ) (ops more : List ω) : play step s (ops ++ more) =
    ((play step (play step s ops).1 more).1,
      (play step s ops).2 ++ (play step (play step s ops).1 more).2) := by
  induction ops generalizing s with
  | nil => rfl
  | cons op ops ih => rw [List.cons_append, play_cons, play_cons, ih, List.cons_append]

theorem play_invariant {I : σ → Prop} (hstep : ∀ s op, I s → I (step s op).1) {s : σ} (h : I s)
    (ops : List ω) : I (play step s ops).1 := by
  induction ops generalizing s with
  | nil => exact h
  | cons op ops ih => exact ih (hstep s op h)

/-- Machines that answer alike and stay related step by step do so over any run. -/
theorem play_simulation {R : σ → τ → Prop}
    (hstep : ∀ s t op, R s t → (step s op).2 = (step' t op).2 ∧ R (step s op).1 (step' t op).1)
    {s : σ} {t : τ} (h : R s t) (ops : List ω) :
    (play step s ops).2 = (play step' t ops).2 ∧ R (play step s ops).1 (play step' t ops).1 := by
  induction ops generalizing s t with
  | nil => exact ⟨rfl, h⟩
  | cons op ops ih =>
    obtain ⟨hreply, hnext⟩ := hstep s t op h
    obtain ⟨hreplies, hlast⟩ := ih hnext
    exact ⟨congrArg₂ List.cons hreply hreplies, hlast⟩

end Play

namespace Catalog

inductive Op where
  | register (d : Declaration)
  | install (m : Mapping)
  | unregister (root : Path)
  | clear (order : Arrangement Entry)
  | close
  | reopen

inductive Reply where
  | outcome (o : Outcome)
  | flag (b : Bool)
  | count (n : Nat)
  | nothing
deriving DecidableEq

def step (c : Catalog) : Op → Catalog × Reply
  | .register d => let (c, o) := c.register d; (c, .outcome o)
  | .install m => let (c, o) := c.install m; (c, .outcome o)
  | .unregister root => let (c, b) := c.unregister root; (c, .flag b)
  | .clear order => let (c, n) := c.clear order; (c, .count n)
  | .close => (c.close, .nothing)
  | .reopen => (c.reopen, .nothing)

def after (ops : List Op) : Catalog := (play step empty ops).1

namespace Stable

variable {I : Table Path Entry → Table Path Mapping → Board → Prop}

theorem keeps_step (hI : Stable I) (c : Catalog) (op : Op) (h : I c.slots c.visible c.board) :
    I (c.step op).1.slots (c.step op).1.visible (c.step op).1.board := by
  cases op with
  | register d => exact hI.keeps_register h d
  | install m => exact hI.keeps_install h m
  | unregister root => exact hI.keeps_unregister h root
  | clear order => exact hI.keeps_clearIn h (order.perm _)
  | close => exact h
  | reopen => exact h

theorem keeps_after (hI : Stable I) (h : I .empty .empty .empty) (ops : List Op) :
    I (after ops).slots (after ops).visible (after ops).board :=
  play_invariant (I := fun c : Catalog => I c.slots c.visible c.board) hI.keeps_step h ops

end Stable

theorem consistent_after (ops : List Op) : (after ops).Consistent :=
  agree_stable.keeps_after consistent_empty ops

end Catalog

end Graft
