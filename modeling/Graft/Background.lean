/-!
# Background work

A task runs beside its owner, who can ask it to stop and can wait for it for a limited time. Stopping
is by agreement: the owner raises a signal that all holders of the task's token see, and the
task looks at it when it pleases. Nothing is interrupted.
-/

namespace Graft

/-- How a task ended, as far as its owner could wait. -/
inductive Ending where
  | completed
  /-- The task was dropped before it began. -/
  | cancelled
  | panicked
  /-- The task was still running when the wait was over. -/
  | timedOut
deriving DecidableEq

namespace Background

/-- A signal that, once raised, stays raised. A token and its copies hold one signal. -/
structure Signal where
  raised : Bool
deriving DecidableEq

def Signal.fresh : Signal := ⟨false⟩

def Signal.raise (_ : Signal) : Signal := ⟨true⟩

inductive Work where
  /-- Adds up the numbers from one to `n`. -/
  | sum (n : Nat)
  /-- Breaks down. -/
  | panic
  /-- Waits for the signal, then gives `value`. -/
  | await (value : Nat)
  /-- Gives `value` without looking at the signal. -/
  | give (value : Nat)
  /-- Gives one if the signal is raised, else zero. -/
  | look
  /-- Runs on. -/
  | hang
deriving DecidableEq

/-- A task, as its owner sees it. -/
structure Task where
  work : Work
  signal : Signal
  /-- Whether there was anyone to begin the task. -/
  begun : Bool

def Task.start (work : Work) : Task := ⟨work, .fresh, true⟩

def Task.cancel (t : Task) : Task := { t with signal := t.signal.raise }

/-- Waits for a task: how it ended and what it gave. -/
def Task.join (t : Task) : Ending × Option Nat :=
  if t.begun then
    match t.work with
    | .sum n => (.completed, some (n * (n + 1) / 2))
    | .panic => (.panicked, none)
    | .await value => if t.signal.raised then (.completed, some value) else (.timedOut, none)
    | .give value => (.completed, some value)
    | .look => (.completed, some t.signal.raised.toNat)
    | .hang => (.timedOut, none)
  else (.cancelled, none)

end Background

end Graft
