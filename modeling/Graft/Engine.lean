import Graft.Background
import Graft.Batch
import Graft.Layer
import Graft.Settings.Basic

/-!
# The engine

The engine keeps a catalog in step with a repository while it is active. Activation opens a
connection, subscribes to changes below the watched paths and starts a first pass over the
repository in the background; from then on every batch of changes is followed as it comes.
Deactivation takes all of this back and withdraws every mapping.

A pass that is held in the background may outlive its activation. Activations are counted, and what
a pass comes to is recorded only if its activation is still the current one. The catalog is sealed
while the engine is inactive, so such a pass finds it closed.

`Pass.Gate` and the quota of subscriptions are the places where the surroundings can hold the
engine up: they make a pass wait, or a subscription fail.
-/

namespace Graft

namespace Engine

/-- How far the first pass of the current activation is. -/
inductive Bootstrap where
  /-- Not active. -/
  | idle
  | running
  | finished (report : Report)
  | cancelled
  | failed
deriving DecidableEq

def Bootstrap.ofResult : Except PassError Report → Bootstrap
  | .error _ => failed
  | .ok report => if report.cancelled then cancelled else finished report

structure Activation where
  generation : Nat
  subscriptions : List Nat
  /-- Whether the first pass broke down. -/
  crashed : Bool
deriving DecidableEq

/-- A pass that waits in the background. -/
structure Held where
  generation : Nat
  signal : Background.Signal
  pass : Pass
deriving DecidableEq

inductive Error where
  | entry (error : Settings.EntryError)
  | repository (error : Repository.Error)
deriving DecidableEq

def Error.message : Error → String
  | entry error => error.message
  | repository error => error.message

end Engine

structure Engine where
  settings : Settings
  repository : Repository
  catalog : Catalog
  active : Option Engine.Activation
  bootstrap : Engine.Bootstrap
  /-- The number of the last activation or deactivation. The 64-bit counter of generations is taken as
  unbounded. -/
  generation : Nat
  /-- The passes that wait, in the order in which they began. -/
  held : List Engine.Held
  /-- Where the first pass of the next activation is held. -/
  gate : Option Pass.Gate
  /-- How many more subscriptions are granted, if there is a limit. -/
  quota : Option Nat

namespace Engine

def new (settings : Settings) : Engine where
  settings
  repository := .empty
  catalog := Catalog.empty.close
  active := none
  bootstrap := .idle
  generation := 0
  held := []
  gate := none
  quota := none

/-! ## Changes -/

/-- Whether a subscription is the engine's own. -/
def hears (e : Engine) (subscription : Nat) : Bool :=
  e.active.any (·.subscriptions.contains subscription)

/-- Follows the batches that the engine is told about, one after the other. There is an order for the
actions of each subscription's batch. -/
def follow (e : Engine) (orders : Nat → Arrangement (Path × Action)) (told : List Delivery) :
    Engine :=
  { e with
    catalog := told.foldl (fun c d =>
      (c.follow (orders d.subscription) e.repository e.settings.queries d.batch).1) e.catalog }

/-- Carries out edits as one transaction of the repository and follows it. Also gives what others
are told. -/
def transact (e : Engine) (orders : Nat → Arrangement (Path × Action)) (edits : List Edit) :
    Engine × List Delivery :=
  let (repository, told) := e.repository.transact edits
  ({ e with repository }.follow orders (told.filter (e.hears ·.subscription)),
    told.filter (!e.hears ·.subscription))

/-! ## Activation -/

/-- Subscribes to the given paths, as far as the quota allows; `ids` are the subscriptions made
so far. Gives the quota left, and either the ids of all subscriptions or the first error, after
which all of them are ended. -/
def subscribeAll : Repository → Option Nat → List Nat → List Path →
    Repository × Option Nat × Except Repository.Error (List Nat)
  | r, quota, ids, [] => (r, quota, .ok ids)
  | r, quota, ids, p :: rest =>
    let giveUp quota error := (ids.foldl Repository.unsubscribe r, quota, .error error)
    match quota with
    | some 0 => giveUp quota .feedRefused
    | _ =>
      let quota := quota.map (· - 1)
      match r.subscribe p with
      | .error e => giveUp quota e
      | .ok (r, id) => subscribeAll r quota (ids ++ [id]) rest

def bootstrapWith (e : Engine) (subscriptions : List Nat) (gate : Option Pass.Gate) : Engine :=
  let generation := e.generation + 1
  let activation : Activation := ⟨generation, subscriptions, false⟩
  let (catalog, progress) := Pass.start e.repository e.settings.queries gate e.catalog
  let e := { e with generation, catalog }
  match progress with
  | .ended result => { e with active := some activation, bootstrap := .ofResult result }
  | .held pass =>
    { e with
      active := some activation
      bootstrap := .running
      held := e.held ++ [⟨generation, .fresh, pass⟩] }
  | .crashed => { e with active := some { activation with crashed := true }, bootstrap := .running }

/-- Activates the engine, unless it is active or disabled. -/
def activate (e : Engine) : Engine × Except Error Unit :=
  if e.active.isSome || !e.settings.enabled then (e, .ok ())
  else match e.settings.watched with
    | .error x => (e, .error (.entry x))
    | .ok paths =>
      match e.repository.connect with
      | .error x => (e, .error (.repository x))
      | .ok connected =>
        match subscribeAll connected e.quota [] paths with
        | (repository, quota, .error x) =>
          ({ e with
            repository := repository.close
            catalog := e.catalog.close
            gate := none
            quota }, .error (.repository x))
        | (repository, quota, .ok ids) =>
          ({ e with
            repository
            catalog := e.catalog.reopen
            gate := none
            quota }.bootstrapWith ids e.gate, .ok ())

/-! ## Deactivation -/

/-- How the first pass of an activation ends for an owner who stops waiting for a held one. -/
def ending (e : Engine) (a : Activation) : Ending :=
  if a.crashed then .panicked
  else if e.held.any (·.generation == a.generation) then .timedOut
  else .completed

/-- Deactivates the engine, whose mappings are withdrawn in the given order. Also tells how the first
pass ended, if the engine was active. -/
def shutdown (e : Engine) (order : Arrangement Catalog.Entry) : Engine × Option Ending :=
  match e.active with
  | none => (e, none)
  | some a =>
    ({ e with
      repository := (a.subscriptions.foldl Repository.unsubscribe e.repository).close
      catalog := (e.catalog.close.clear order).1
      active := none
      bootstrap := .idle
      generation := e.generation + 1
      held := e.held.map fun h =>
        if h.generation = a.generation then { h with signal := h.signal.raise } else h },
    some (e.ending a))

/-- Deactivates the engine without waiting. -/
def deactivate (e : Engine) (order : Arrangement Catalog.Entry) : Engine := (e.shutdown order).1

/-! ## Held passes -/

/-- Lets one held pass run to its end. -/
def resume (e : Engine) (h : Held) : Engine :=
  let (catalog, result) := h.pass.finish e.repository (fun _ => h.signal.raised) e.catalog
  let bootstrap :=
    if h.generation = e.generation then Bootstrap.ofResult result else e.bootstrap
  { e with catalog, bootstrap }

def release (e : Engine) : Engine := e.held.foldl resume { e with held := [] }

/-! ## Views -/

/-- Whether the first pass has registered every declaration. -/
def isInitialized (e : Engine) : Bool :=
  match e.bootstrap with
  | .finished _ => true
  | _ => false

/-- Whether the first pass has yet to end. -/
def isPending (e : Engine) : Bool := e.bootstrap == .running

/-- The mapped layer on top of `beneath`, while the engine is active. -/
def layer? {m : Type → Type} [Monad m] (e : Engine) (beneath : Layer m) : Option (Layer m) :=
  if e.active.isSome then some (.mapped e.catalog e.repository beneath) else none

end Engine

end Graft
