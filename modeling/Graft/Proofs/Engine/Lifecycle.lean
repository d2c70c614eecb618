import Graft.Proofs.Engine.Moves

/-!
# The life of an engine

Whatever happens to an engine, its connection, its subscriptions, the seal of its catalog and the
state of its first pass change hands together: an engine is either off or on, and nothing of the one
is left in the other (`after_off_or_on`). This asks nothing of the settings, of the edits, or of the
moments at which the repository fails, refuses or keeps passes waiting.
-/

namespace Graft

/-! ## Connections and subscriptions -/

namespace Repository

theorem eq_of_connect {r r' : Repository} (h : r.connect = .ok r') :
    r' = { r with connections := r.connections + 1 } := by
  unfold connect at h
  split at h
  · cases h
  · exact (Except.ok.inj h).symm

theorem foldl_unsubscribe (r : Repository) (ids : List Nat) :
    ids.foldl unsubscribe r = { r with subscriptions := r.subscriptions.filter (·.id ∉ ids) } := by
  induction ids generalizing r with
  | nil => simp
  | cons id ids ih =>
    rw [List.foldl_cons, ih, unsubscribe]
    simp only [List.filter_filter, List.mem_cons, not_or, Bool.decide_and, Bool.and_comm]

theorem foldl_unsubscribe_all {r : Repository} {ids : List Nat}
    (h : ids = r.subscriptions.map (·.id)) :
    ids.foldl unsubscribe r = { r with subscriptions := [] } := by
  have hnone : r.subscriptions.filter (·.id ∉ ids) = [] := by
    rw [List.filter_eq_nil_iff]
    intro s hs
    have hid : s.id ∈ ids := h ▸ List.mem_map_of_mem hs
    simp [hid]
  rw [foldl_unsubscribe, hnone]

end Repository

namespace Engine

/-- Each of the paths has a subscription of its own, in the same order. -/
def Watching (paths : List Path) (subscriptions : List Subscription) : Prop :=
  List.Forall₂ (fun p s => p.normalize? = some s.scope) paths subscriptions

theorem subscribeAll_cons (r : Repository) (quota : Option Nat) (ids : List Nat) (p : Path)
    (paths : List Path) :
    (∃ quota' error, subscribeAll r quota ids (p :: paths) =
      (ids.foldl Repository.unsubscribe r, quota', .error error)) ∨
    ∃ s, p.normalize? = some s ∧ subscribeAll r quota ids (p :: paths) =
      subscribeAll { r with
        subscriptions := r.subscriptions ++ [⟨r.issued, s⟩]
        issued := r.issued + 1 } (quota.map (· - 1)) (ids ++ [r.issued]) paths := by
  generalize hall : subscribeAll r quota ids (p :: paths) = result
  unfold subscribeAll at hall
  split at hall
  · exact Or.inl ⟨_, _, hall.symm⟩
  · cases hp : p.normalize? with
    | none =>
      simp only [Repository.subscribe, hp] at hall
      exact Or.inl ⟨_, _, hall.symm⟩
    | some s =>
      simp only [Repository.subscribe, hp] at hall
      exact Or.inr ⟨s, rfl, hall.symm⟩

/-- Either all paths are subscribed to, or every subscription made on the way is ended again. -/
theorem subscribeAll_cases (r : Repository) (quota : Option Nat) (ids : List Nat)
    (paths : List Path) : ∃ r' quota' new issued,
    r' = { r with subscriptions := r.subscriptions ++ new, issued } ∧
    ((subscribeAll r quota ids paths = (r', quota', .ok (ids ++ new.map (·.id))) ∧
        Watching paths new) ∨
      ∃ error, subscribeAll r quota ids paths =
        ((ids ++ new.map (·.id)).foldl Repository.unsubscribe r', quota', .error error)) := by
  induction paths generalizing r quota ids with
  | nil =>
    refine ⟨_, quota, [], r.issued, rfl, Or.inl ⟨?_, .nil⟩⟩
    simp [subscribeAll]
  | cons p paths ih =>
    rcases subscribeAll_cons r quota ids p paths with ⟨quota', error, heq⟩ | ⟨s, hp, heq⟩
    · refine ⟨_, quota', [], r.issued, rfl, Or.inr ⟨error, ?_⟩⟩
      simpa using heq
    · obtain ⟨r', quota', new, issued, rfl, hrest⟩ := ih
        { r with
          subscriptions := r.subscriptions ++ [⟨r.issued, s⟩]
          issued := r.issued + 1 } (quota.map (· - 1)) (ids ++ [r.issued])
      refine ⟨_, quota', ⟨r.issued, s⟩ :: new, issued, rfl, ?_⟩
      rw [heq]
      simp only [List.append_assoc, List.singleton_append] at hrest
      rcases hrest with ⟨hok, hwatch⟩ | hfail
      · exact Or.inl ⟨hok, .cons hp hwatch⟩
      · exact Or.inr hfail

end Engine

namespace Engine

variable {settings : Settings} {e : Engine} {a : Activation}

theorem catalog_follow {I : Catalog → Prop} (hI : Catalog.Lasting (fun _ => True) I)
    (orders : Nat → Arrangement (Path × Action)) (told : List Delivery) (h : I e.catalog) :
    I (e.follow orders told).catalog := by
  apply List.foldlRecOn told _ h
  intro c hc d _
  exact hI.follow (fun _ _ => trivial) _ e.settings.queries d.batch hc

/-! ## Events -/

inductive Event where
  | move (m : Move)
  | shutdown (order : Arrangement Catalog.Entry)
  /-- From now on reads fail, or succeed again. -/
  | failReads (on : Bool)
  /-- From now on connections are refused, or made again. -/
  | refuse (on : Bool)
  /-- From now on so many subscriptions are granted. -/
  | grant (quota : Option Nat)

def undergo (e : Engine) : Event → Engine
  | .move m => e.move m
  | .shutdown order => (e.shutdown order).1
  | .failReads on => { e with repository := { e.repository with failing := on } }
  | .refuse on => { e with repository := { e.repository with refusing := on } }
  | .grant quota => { e with quota }

def after (settings : Settings) (events : List Event) : Engine :=
  events.foldl undergo (Engine.new settings)

/-! ## Off and on -/

def Bootstrap.Begun : Bootstrap → Prop
  | running | finished _ | failed => True
  | idle | cancelled => False

theorem Bootstrap.begun_ofResult {result : Except PassError Report}
    (h : ∀ report, result = .ok report → report.cancelled = false) : (ofResult result).Begun := by
  cases result with
  | error e => trivial
  | ok report =>
    rw [ofResult, h report rfl]
    trivial

structure Off (e : Engine) : Prop where
  resting : e.Resting
  disconnected : e.repository.connections = 0

structure On (a : Activation) (e : Engine) : Prop where
  current : a.generation = e.generation
  connected : e.repository.connections = 1
  own : a.subscriptions = e.repository.subscriptions.map (·.id)
  watching : ∃ paths, e.settings.watched = .ok paths ∧ Watching paths e.repository.subscriptions
  isOpen : e.catalog.isSealed = false
  begun : e.bootstrap.Begun
  unstopped : ∀ x ∈ e.held, x.generation = e.generation → x.signal.raised = false

/-- What events keep. -/
structure Orderly (settings : Settings) (e : Engine) : Prop where
  settings_eq : e.settings = settings
  consistent : e.catalog.Consistent
  not_newer : ∀ x ∈ e.held, x.generation ≤ e.generation
  uncancelled : ∀ x ∈ e.held, x.pass.report.cancelled = false
  off : e.active = none → e.Off
  on : ∀ a, e.active = some a → e.On a

theorem orderly_new (settings : Settings) : Orderly settings (Engine.new settings) where
  settings_eq := rfl
  consistent := Catalog.consistent_empty
  not_newer _ h := absurd h List.not_mem_nil
  uncancelled _ h := absurd h List.not_mem_nil
  off _ := ⟨⟨rfl, rfl, rfl, rfl, fun _ h => absurd h List.not_mem_nil⟩, rfl⟩
  on _ h := nomatch h

namespace Orderly

theorem lasting_of_off (h : e.Orderly settings) (hoff : e.Off) :
    Catalog.Lasting (fun _ => True) (· = e.catalog) :=
  Catalog.lasting_shut h.consistent hoff.resting.isSealed hoff.resting.empty

theorem transact (h : e.Orderly settings) (orders : Nat → Arrangement (Path × Action))
    (edits : List Edit) : (e.transact orders edits).1.Orderly settings := by
  cases ha : e.active with
  | none =>
    have hoff := h.off ha
    rw [transact_of_unsubscribed hoff.resting.unsubscribed]
    refine { h with off := ?_, on := ?_ }
    · intro _
      exact ⟨{ hoff.resting with unsubscribed := hoff.resting.unsubscribed }, hoff.disconnected⟩
    · intro a hactive
      rw [ha] at hactive
      cases hactive
  | some a =>
    have hopen : (e.transact orders edits).1.catalog.Open :=
      catalog_follow Catalog.lasting_open orders _ ⟨h.consistent, (h.on a ha).isOpen⟩
    refine { h with consistent := hopen.consistent, off := ?_, on := ?_ }
    · intro hinactive
      have hnone : e.active = none := hinactive
      rw [ha] at hnone
      cases hnone
    · intro a' ha'
      have hon := h.on a' ha'
      exact { hon with isOpen := hopen.unsealed }

theorem advance (h : e.Orderly settings) (i : Nat) : (e.advance i).Orderly settings := by
  unfold Engine.advance
  split
  · next x hx =>
    have hmem := List.mem_of_getElem? hx
    generalize ht : x.pass.step e.repository (fun _ => x.signal.raised) e.catalog = t
    refine {
      settings_eq := (settings_put ..).trans h.settings_eq
      consistent := ?_
      not_newer := ?_
      uncancelled := ?_
      off := ?_
      on := ?_ }
    · rw [catalog_put, ← ht]
      exact (Catalog.lasting_consistent (D := fun _ => True)).step _ _ _ h.consistent
    · rw [generation_put]
      exact forall_held_put h.not_newer fun pass _ => h.not_newer x hmem
    · refine forall_held_put h.uncancelled fun pass hpass => ?_
      exact Pass.uncancelled_of_step (h.uncancelled x hmem) (ht ▸ hpass)
    · rw [active_put]
      intro ha
      have hoff := h.off ha
      have hcatalog : t.1 = e.catalog := ht ▸ (h.lasting_of_off hoff).step _ _ _ rfl
      refine ⟨hoff.resting.put hmem hcatalog, ?_⟩
      rw [repository_put]
      exact hoff.disconnected
    · rw [active_put]
      intro a ha
      have hon := h.on a ha
      have hopen : t.1.Open := ht ▸
        (Catalog.lasting_open (D := fun _ => True)).step _ _ _ ⟨h.consistent, hon.isOpen⟩
      refine {
        current := (generation_put ..).symm ▸ hon.current
        connected := (repository_put ..).symm ▸ hon.connected
        own := (repository_put ..).symm ▸ hon.own
        watching := ?_
        isOpen := (catalog_put ..).symm ▸ hopen.unsealed
        begun := ?_
        unstopped := ?_ }
      · rw [settings_put, repository_put]
        exact hon.watching
      · rw [bootstrap_put]
        split
        · next result hresult =>
          split
          · next hcurrent =>
            -- nobody has told the pass of this activation to stop
            have huncancelled := Pass.step_uncancelled e.repository e.catalog (h.uncancelled x hmem)
            rw [hon.unstopped x hmem hcurrent] at ht
            rw [ht, hresult] at huncancelled
            exact Bootstrap.begun_ofResult huncancelled
          · exact hon.begun
        · exact hon.begun
        · exact hon.begun
      · rw [generation_put]
        exact forall_held_put hon.unstopped fun pass _ => hon.unstopped x hmem
  · exact h

theorem deactivate (h : e.Orderly settings) (order : Arrangement Catalog.Entry) :
    (e.deactivate order).Orderly settings := by
  cases ha : e.active with
  | none =>
    rw [deactivate_of_inactive ha]
    exact h
  | some a =>
    have hon := h.on a ha
    rw [deactivate_of_active ha, Repository.foldl_unsubscribe_all hon.own]
    refine {
      settings_eq := h.settings_eq
      consistent := ?_
      not_newer := ?_
      uncancelled := ?_
      off := ?_
      on := fun _ h => nomatch h }
    · exact Catalog.consistent_clearIn (Catalog.consistent_close h.consistent) (order.perm _)
    · intro y hy
      obtain ⟨x, hx, hgeneration, -⟩ := held_of_mem_raised hy
      rw [hgeneration]
      exact (h.not_newer x hx).trans (Nat.le_succ _)
    · intro y hy
      obtain ⟨x, hx, -, hpass, -⟩ := held_of_mem_raised hy
      rw [hpass]
      exact h.uncancelled x hx
    · intro _
      refine ⟨⟨rfl, Catalog.isSealed_clearIn _ _, ?_, rfl, ?_⟩, ?_⟩
      · exact Catalog.visible_clearIn (Catalog.consistent_close h.consistent) (order.perm _)
      · intro y hy
        obtain ⟨x, hx, hgeneration, -⟩ := held_of_mem_raised hy
        have hle := h.not_newer x hx
        rw [hgeneration]
        show x.generation ≠ e.generation + 1
        omega
      · show e.repository.connections - 1 = 0
        rw [hon.connected]

/-- The state after an activation, in which `new` has the first pass if that is held. -/
theorem begun (h : e.Orderly settings) {r : Repository} {c : Catalog} {ids : List Nat}
    {paths : List Path} (quota : Option Nat) (crashed : Bool) (b : Bootstrap) (new : List Held)
    (hconnected : r.connections = 1) (hown : ids = r.subscriptions.map (·.id))
    (hpaths : settings.watched = .ok paths) (hwatching : Watching paths r.subscriptions)
    (hopen : c.Open) (hbegun : b.Begun)
    (hnew : ∀ x ∈ new, x.generation = e.generation + 1 ∧ x.signal.raised = false ∧
      x.pass.report.cancelled = false) :
    Orderly settings
      { e with
        repository := r
        catalog := c
        active := some ⟨e.generation + 1, ids, crashed⟩
        bootstrap := b
        generation := e.generation + 1
        held := e.held ++ new
        gate := none
        quota } := by
  have hall : ∀ {P : Held → Prop}, (∀ x ∈ e.held, P x) → (∀ x ∈ new, P x) →
      ∀ x ∈ e.held ++ new, P x := by
    intro P hold hP x hx
    rcases List.mem_append.1 hx with hx | hx
    · exact hold x hx
    · exact hP x hx
  refine {
    settings_eq := h.settings_eq
    consistent := hopen.consistent
    not_newer := ?_
    uncancelled := hall h.uncancelled fun x hx => (hnew x hx).2.2
    off := fun h => nomatch h
    on := ?_ }
  · refine hall (fun x hx => ?_) fun x hx => (hnew x hx).1.le
    exact (h.not_newer x hx).trans (Nat.le_succ _)
  · intro a ha
    obtain rfl := Option.some.inj ha
    refine ⟨rfl, hconnected, hown, ⟨paths, ?_, hwatching⟩, hopen.unsealed, hbegun, ?_⟩
    · rw [← hpaths, ← h.settings_eq]
    · refine hall (fun x hx hcurrent => ?_) fun x hx _ => (hnew x hx).2.1
      -- what was held before belongs to an older activation
      have hle := h.not_newer x hx
      have heq : x.generation = e.generation + 1 := hcurrent
      omega

/-- An activation that has all its subscriptions begins the first pass in an open catalog. -/
theorem started (h : e.Orderly settings) {r : Repository} {ids : List Nat} {paths : List Path}
    (hconnected : r.connections = 1) (hown : ids = r.subscriptions.map (·.id))
    (hpaths : settings.watched = .ok paths) (hwatching : Watching paths r.subscriptions)
    (quota : Option Nat) (gate : Option Pass.Gate) :
    Orderly settings ({ e with
      repository := r
      catalog := e.catalog.reopen
      gate := none
      quota }.bootstrapWith ids gate) := by
  have hopen := Catalog.lasting_open.start r e.settings.queries gate (c := e.catalog.reopen)
    ⟨h.consistent, rfl⟩
  have huncancelled := Pass.start_uncancelled r e.settings.queries gate e.catalog.reopen
  unfold Engine.bootstrapWith
  dsimp only
  generalize Pass.start r e.settings.queries gate e.catalog.reopen = result at *
  obtain ⟨c, progress⟩ := result
  have hbegun := fun crashed b new =>
    h.begun quota crashed b new hconnected hown hpaths hwatching hopen
  cases progress with
  | ended result =>
    have hnone := hbegun false _ [] (Bootstrap.begun_ofResult huncancelled)
      fun x hx => absurd hx List.not_mem_nil
    rw [List.append_nil] at hnone
    exact hnone
  | held pass =>
    refine hbegun false .running [⟨e.generation + 1, .fresh, pass⟩] trivial ?_
    intro x hx
    obtain rfl := List.mem_singleton.1 hx
    exact ⟨rfl, rfl, huncancelled⟩
  | crashed =>
    have hnone := hbegun true .running [] trivial fun x hx => absurd hx List.not_mem_nil
    rw [List.append_nil] at hnone
    exact hnone

/-- An activation that is refused a subscription leaves nothing behind. -/
theorem gaveUp (h : e.Orderly settings) (ha : e.active = none) {r : Repository} {ids : List Nat}
    (hconnected : r.connections = 1) (hown : ids = r.subscriptions.map (·.id))
    (quota : Option Nat) :
    Orderly settings { e with
      repository := (ids.foldl Repository.unsubscribe r).close
      catalog := e.catalog.close
      gate := none
      quota } := by
  have hoff := h.off ha
  rw [Repository.foldl_unsubscribe_all hown]
  refine { h with off := ?_, on := ?_ }
  · intro _
    refine ⟨{ hoff.resting with isSealed := rfl, unsubscribed := rfl }, ?_⟩
    show r.connections - 1 = 0
    rw [hconnected]
  · intro a hactive
    rw [ha] at hactive
    cases hactive

theorem activate (h : e.Orderly settings) : e.activate.1.Orderly settings := by
  unfold Engine.activate
  split
  · exact h
  · next hguard =>
    have ha : e.active = none := by
      cases hactive : e.active with
      | none => rfl
      | some a => exact absurd (by simp [hactive]) hguard
    have hoff := h.off ha
    split
    · exact h
    · next paths hpaths =>
      rw [h.settings_eq] at hpaths
      split
      · exact h
      · next connected hconnect =>
        obtain rfl : connected = { e.repository with connections := 1 } := by
          rw [Repository.eq_of_connect hconnect, hoff.disconnected]
        obtain ⟨r, quota, new, issued, rfl, ⟨hsubscribe, hwatching⟩ | ⟨error, hsubscribe⟩⟩ :=
          subscribeAll_cases { e.repository with connections := 1 } e.quota [] paths
        -- there were no subscriptions, so all there are now are this activation's
        · rw [hsubscribe]
          apply h.started rfl _ hpaths
          · rw [hoff.resting.unsubscribed]
            exact hwatching
          · rw [hoff.resting.unsubscribed]
            rfl
        · rw [hsubscribe]
          apply h.gaveUp ha rfl
          rw [hoff.resting.unsubscribed]
          rfl

theorem shutdown (h : e.Orderly settings) (order : Arrangement Catalog.Entry) :
    (e.shutdown order).1.Orderly settings := h.deactivate order

theorem undergo (h : e.Orderly settings) (event : Event) : (e.undergo event).Orderly settings := by
  cases event with
  | move m =>
    cases m with
    | activate gate =>
      have hgate : Orderly settings { e with gate } := { h with
        off := fun ha => ⟨{ (h.off ha).resting with idle := (h.off ha).resting.idle },
          (h.off ha).disconnected⟩
        on := fun a ha => { h.on a ha with own := (h.on a ha).own } }
      exact hgate.activate
    | deactivate order => exact h.deactivate order
    | advance i => exact h.advance i
    | transact orders edits => exact h.transact orders edits
  | shutdown order => exact h.shutdown order
  | failReads on | refuse on | grant quota =>
    exact { h with
      off := fun ha => ⟨{ (h.off ha).resting with idle := (h.off ha).resting.idle },
        (h.off ha).disconnected⟩
      on := fun a ha => { h.on a ha with own := (h.on a ha).own } }

end Orderly

theorem orderly_after (settings : Settings) (events : List Event) :
    (after settings events).Orderly settings :=
  List.foldlRecOn events undergo (orderly_new settings) fun _ h event _ => h.undergo event

/-- After any events an engine is either off or on. If it is off then it has neither a connection nor
a subscription, its catalog is sealed and empty and its board is bare, there is no layer to read
through, no edit reaches the catalog, and there is nothing to deactivate. If it is on then it has one
connection and one subscription for each path to watch, its catalog is open, the first pass runs or
has come to an end of its own, and there is nothing to activate. Nor is there ever for an engine that
is disabled. -/
theorem after_off_or_on (settings : Settings) (events : List Event) :
    let e := after settings events
    (e.active = none →
      e.repository.connections = 0 ∧ e.repository.subscriptions = [] ∧
      e.catalog.isSealed = true ∧ e.catalog.mappings = [] ∧ e.catalog.board.shown = [] ∧
      e.bootstrap = .idle ∧
      (∀ {m : Type → Type} [Monad m] (beneath : Layer m), (e.layer? beneath).isNone = true) ∧
      (∀ orders edits, (e.transact orders edits).1.catalog = e.catalog) ∧
      ∀ order, e.shutdown order = (e, none) ∧ e.deactivate order = e) ∧
    (∀ a, e.active = some a →
      e.repository.connections = 1 ∧ a.subscriptions = e.repository.subscriptions.map (·.id) ∧
      (∃ paths, settings.watched = .ok paths ∧ Watching paths e.repository.subscriptions) ∧
      e.catalog.isSealed = false ∧
      (e.bootstrap = .running ∨ (∃ report, e.bootstrap = .finished report) ∨
        e.bootstrap = .failed) ∧
      e.activate = (e, .ok ())) ∧
    (settings.enabled = false → e.activate = (e, .ok ())) := by
  intro e
  have h : e.Orderly settings := orderly_after settings events
  refine ⟨?_, ?_, ?_⟩
  · intro ha
    have hoff := h.off ha
    have hmappings : e.catalog.mappings = [] := by
      rw [Catalog.mappings, hoff.resting.empty]
      rfl
    refine ⟨hoff.disconnected, hoff.resting.unsubscribed, hoff.resting.isSealed, hmappings, ?_,
      hoff.resting.idle, ?_, ?_, fun order => ⟨?_, deactivate_of_inactive ha order⟩⟩
    · exact (Catalog.Agree.shown_eq h.consistent).trans hmappings
    · intro m _ beneath
      rw [layer?, ha]
      rfl
    · intro orders edits
      rw [transact_of_unsubscribed hoff.resting.unsubscribed]
    · rw [shutdown, ha]
  · intro a ha
    have hon := h.on a ha
    refine ⟨hon.connected, hon.own, ?_, hon.isOpen, ?_, ?_⟩
    · rw [← h.settings_eq]
      exact hon.watching
    · have hbegun := hon.begun
      cases hb : e.bootstrap with
      | running => exact Or.inl rfl
      | finished report => exact Or.inr (Or.inl ⟨report, rfl⟩)
      | failed => exact Or.inr (Or.inr rfl)
      | idle | cancelled =>
        rw [hb] at hbegun
        exact hbegun.elim
    · rw [activate, ha]
      rfl
  · intro hdisabled
    rw [activate, h.settings_eq, hdisabled, Bool.not_false, Bool.or_true]
    rfl

end Engine

end Graft
