import Graft.Proofs.Engine.Lifecycle
import Graft.Proofs.Settings.Watched

/-!
# Activation that fails

An activation can fail on an entry of the settings, at the connection or at any of its
subscriptions. By then it may have opened a connection and made some subscriptions, and all of this
is taken back: nothing is left but that more subscriptions have been numbered
(`activate_failed`). So the engine is as inactive as before, and no edit reaches the catalog until
an activation succeeds (`quiet_keeps`).

Here the repository is shared. Others connect to it and subscribe as well, and what is theirs stays
(`Shared`): the subscriptions to be ended are told from theirs by their numbers, which are new.
-/

namespace Graft

/-! ## A repository with visitors -/

namespace Repository

variable {r r' : Repository}

/-- Each subscription has the number of one that has been made. -/
def Numbered (r : Repository) : Prop := ∀ s ∈ r.subscriptions, s.id < r.issued

inductive Visit where
  | subscribe (scope : Path)
  | unsubscribe (id : Nat)
  | connect
  | disconnect

def visit (r : Repository) : Visit → Repository
  | .subscribe scope =>
    match r.subscribe scope with
    | .ok (r, _) => r
    | .error _ => r
  | .unsubscribe id => r.unsubscribe id
  | .connect =>
    match r.connect with
    | .ok r => r
    | .error _ => r
  | .disconnect => r.close

namespace Numbered

theorem subscribed (h : r.Numbered) (scope : Path) : Numbered { r with
    subscriptions := r.subscriptions ++ [⟨r.issued, scope⟩]
    issued := r.issued + 1 } := by
  intro s hs
  rcases List.mem_append.1 hs with hold | hnew
  · exact Nat.lt_succ_of_lt (h s hold)
  · obtain rfl := List.mem_singleton.1 hnew
    exact Nat.lt_succ_self _

theorem unsubscribed (h : r.Numbered) (ids : List Nat) :
    (ids.foldl unsubscribe r).Numbered := by
  rw [foldl_unsubscribe]
  intro s hs
  exact h s (List.mem_filter.1 hs).1

theorem visit (h : r.Numbered) (v : Visit) : (r.visit v).Numbered := by
  cases v with
  | subscribe scope =>
    dsimp only [Repository.visit, subscribe]
    cases scope.normalize? with
    | none => exact h
    | some s => exact h.subscribed s
  | unsubscribe id => exact h.unsubscribed [id]
  | connect =>
    dsimp only [Repository.visit, connect]
    cases r.refusing with
    | true => exact h
    | false => exact h
  | disconnect => exact h

end Numbered

end Repository

namespace Catalog

theorem close_of_isSealed {c : Catalog} (h : c.isSealed = true) : c.close = c := by
  rw [close, ← h]

end Catalog

namespace Engine

variable {settings : Settings} {e e' : Engine} {r : Repository}

/-- What holds of an engine while others visit its repository. -/
structure Shared (settings : Settings) (e : Engine) : Prop where
  settings_eq : e.settings = settings
  consistent : e.catalog.Consistent
  isSealed : e.active = none → e.catalog.isSealed = true
  empty : e.active = none → e.catalog.visible = .empty
  numbered : e.repository.Numbered

/-! ## Subscriptions that are taken back -/

theorem numbered_subscribeAll (h : r.Numbered) (quota : Option Nat) (ids : List Nat)
    (paths : List Path) : (subscribeAll r quota ids paths).1.Numbered := by
  induction paths generalizing r quota ids with
  | nil => exact h
  | cons p paths ih =>
    rcases subscribeAll_cons r quota ids p paths with ⟨quota', error, heq⟩ | ⟨s, -, heq⟩
    · rw [heq]
      exact h.unsubscribed ids
    · rw [heq]
      exact ih (h.subscribed s) _ _

/-- When a subscription is refused those made before it are ended, which are new, and those that
were to be ended with them. -/
theorem subscribeAll_refused (h : r.Numbered) {quota : Option Nat} {ids : List Nat}
    {paths : List Path} {error : Repository.Error}
    (hfail : (subscribeAll r quota ids paths).2.2 = .error error) :
    ∃ issued, (subscribeAll r quota ids paths).1 =
      { r with subscriptions := r.subscriptions.filter (·.id ∉ ids), issued } := by
  induction paths generalizing r quota ids with
  | nil => cases hfail
  | cons p paths ih =>
    rcases subscribeAll_cons r quota ids p paths with ⟨quota', error', heq⟩ | ⟨s, -, heq⟩
    · rw [heq, Repository.foldl_unsubscribe]
      exact ⟨r.issued, rfl⟩
    · rw [heq] at hfail ⊢
      obtain ⟨issued, hrest⟩ := ih (h.subscribed s) hfail
      -- what is there already has other numbers than the next one
      have hold : r.subscriptions.filter (·.id ∉ ids ++ [r.issued]) =
          r.subscriptions.filter (·.id ∉ ids) := by
        apply List.filter_congr
        intro x hx
        have hne : x.id ≠ r.issued := Nat.ne_of_lt (h x hx)
        simp [hne]
      have hnew : [(⟨r.issued, s⟩ : Subscription)].filter (·.id ∉ ids ++ [r.issued]) = [] := by
        simp
      refine ⟨issued, ?_⟩
      rw [hrest, List.filter_append, hold, hnew, List.append_nil]

/-- The subscriptions are refused if there are too few, or if one of the paths is refused. -/
theorem subscribeAll_fails_iff (r : Repository) (quota : Option Nat) (ids : List Nat)
    (paths : List Path) : (∃ error, (subscribeAll r quota ids paths).2.2 = .error error) ↔
      (∃ k, quota = some k ∧ k < paths.length) ∨ ∃ p ∈ paths, p.normalize? = none := by
  induction paths generalizing r quota ids with
  | nil =>
    constructor
    · rintro ⟨error, h⟩
      cases h
    · rintro (⟨k, -, h⟩ | ⟨p, h, -⟩)
      · exact absurd h (Nat.not_lt_zero k)
      · exact absurd h List.not_mem_nil
  | cons p paths ih =>
    unfold subscribeAll Repository.subscribe
    split
    · exact iff_of_true ⟨_, rfl⟩ (Or.inl ⟨0, rfl, Nat.succ_pos _⟩)
    next hquota =>
    dsimp only
    cases hp : p.normalize? with
    | none => exact iff_of_true ⟨_, rfl⟩ (Or.inr ⟨p, List.mem_cons_self, hp⟩)
    | some s =>
      refine (ih _ _ _).trans (or_congr ?_ ?_)
      · cases quota with
        | none => simp
        | some k =>
          cases k with
          | zero => exact absurd rfl hquota
          | succ k => simp
      · simp [hp]

/-! ## Failure -/

/-- What comes of an inactive engine that is activated. An activation that fails takes back what it
has done; the numbers that it has given out are gone. -/
theorem activate_cases (h : e.Shared settings) (ha : e.active = none) :
    e.activate = (e, .ok ()) ∨
    (∃ error issued gate quota, { e.repository with issued }.Numbered ∧ e.activate =
      ({ e with repository := { e.repository with issued }, gate, quota }, .error error)) ∨
    ∃ r quota ids, r.Numbered ∧ e.activate = ({ e with
      repository := r
      catalog := e.catalog.reopen
      gate := none
      quota }.bootstrapWith ids e.gate, .ok ()) := by
  unfold activate
  split
  · exact Or.inl rfl
  right
  split
  · exact Or.inl ⟨_, _, _, _, h.numbered, rfl⟩
  next paths hpaths =>
  split
  · exact Or.inl ⟨_, _, _, _, h.numbered, rfl⟩
  next connected hconnect =>
  have hconnected := Repository.eq_of_connect hconnect
  have hstart : connected.Numbered := hconnected ▸ h.numbered
  have hnumbered := numbered_subscribeAll hstart e.quota [] paths
  split
  · next r quota error hrefused =>
    left
    obtain ⟨issued, hr⟩ := subscribeAll_refused hstart (congrArg (·.2.2) hrefused)
    have hlive : connected.subscriptions.filter (·.id ∉ []) = connected.subscriptions := by simp
    rw [hrefused] at hnumbered hr
    rw [hlive] at hr
    subst hr hconnected
    refine ⟨.repository error, issued, none, quota, hnumbered, ?_⟩
    rw [Catalog.close_of_isSealed (h.isSealed ha)]
    rfl
  · next r quota ids hgranted =>
    rw [hgranted] at hnumbered
    exact Or.inr ⟨r, quota, ids, hnumbered, rfl⟩

theorem activate_failed (h : e.Shared settings) (ha : e.active = none) {error : Error}
    (hfail : e.activate.2 = .error error) : ∃ issued gate quota,
      e.activate.1 = { e with repository := { e.repository with issued }, gate, quota } := by
  rcases activate_cases h ha with
    heq | ⟨error, issued, gate, quota, -, heq⟩ | ⟨r, quota, ids, -, heq⟩
  · rw [heq] at hfail
    cases hfail
  · exact ⟨issued, gate, quota, congrArg Prod.fst heq⟩
  · rw [heq] at hfail
    cases hfail

/-- The points at which an activation can fail. A path to watch is a normal form, but it need not
be its own. -/
theorem activate_fails_iff (ha : e.active = none) (henabled : e.settings.enabled = true) :
    (∃ error, e.activate.2 = .error error) ↔
      (∃ entry ∈ e.settings.entries, (Path.ofString entry.2).normalize? = none) ∨
      e.repository.refusing = true ∨
      ∃ paths, e.settings.watched = .ok paths ∧
        ((∃ k, e.quota = some k ∧ k < paths.length) ∨ ∃ p ∈ paths, p.normalize? = none) := by
  rw [← Settings.watched_fails_iff]
  unfold activate
  rw [ha, henabled]
  simp only [Option.isSome_none, Bool.not_true, Bool.or_false, Bool.false_eq_true, if_false]
  split
  · next x hx =>
    rw [hx]
    exact iff_of_true ⟨_, rfl⟩ (Or.inl ⟨x, rfl⟩)
  next paths hpaths =>
  rw [hpaths]
  cases hrefusing : e.repository.refusing with
  | true =>
    have hconnect : e.repository.connect = .error .connectionsRefused := by
      rw [Repository.connect, if_pos hrefusing]
    rw [hconnect]
    exact iff_of_true ⟨_, rfl⟩ (Or.inr (Or.inl rfl))
  | false =>
    cases hconnect : e.repository.connect with
    | error error =>
      rw [Repository.connect, hrefusing] at hconnect
      cases hconnect
    | ok connected =>
      have hiff := subscribeAll_fails_iff connected e.quota [] paths
      dsimp only
      split
      · next hrefused =>
        rw [hrefused] at hiff
        exact iff_of_true ⟨_, rfl⟩ (Or.inr (Or.inr ⟨paths, rfl, hiff.1 ⟨_, rfl⟩⟩))
      · next hgranted =>
        rw [hgranted] at hiff
        constructor
        · rintro ⟨error, ⟨⟩⟩
        · rintro (⟨error, ⟨⟩⟩ | ⟨⟨⟩⟩ | ⟨paths', h, hfails⟩)
          obtain rfl := Except.ok.inj h
          obtain ⟨error, ⟨⟩⟩ := hiff.2 hfails

/-! ## What else happens -/

theorem shared_bootstrapWith (hsettings : e.settings = settings)
    (hconsistent : e.catalog.Consistent) (hnumbered : e.repository.Numbered) (ids : List Nat)
    (gate : Option Pass.Gate) : (e.bootstrapWith ids gate).Shared settings := by
  have hpass := Catalog.lasting_consistent.start e.repository e.settings.queries gate hconsistent
  unfold bootstrapWith
  dsimp only
  generalize Pass.start e.repository e.settings.queries gate e.catalog = result at *
  obtain ⟨c, progress⟩ := result
  cases progress with
  | ended result => exact ⟨hsettings, hpass, nofun, nofun, hnumbered⟩
  | held pass => exact ⟨hsettings, hpass, nofun, nofun, hnumbered⟩
  | crashed => exact ⟨hsettings, hpass, nofun, nofun, hnumbered⟩

namespace Shared

theorem new (settings : Settings) : (Engine.new settings).Shared settings where
  settings_eq := rfl
  consistent := Catalog.consistent_empty
  isSealed _ := rfl
  empty _ := rfl
  numbered _ h := absurd h List.not_mem_nil

theorem activate (h : e.Shared settings) : e.activate.1.Shared settings := by
  cases ha : e.active with
  | some a =>
    rw [activate_of_active ha]
    exact h
  | none =>
    rcases activate_cases h ha with
      heq | ⟨error, issued, gate, quota, hnumbered, heq⟩ | ⟨r, quota, ids, hnumbered, heq⟩
    · rw [heq]
      exact h
    · rw [heq]
      exact { h with numbered := hnumbered }
    · rw [heq]
      apply shared_bootstrapWith
      · exact h.settings_eq
      · exact h.consistent
      · exact hnumbered

/-- What a step does to the catalog by registrations and unregistrations comes to nothing while the
engine is inactive. -/
theorem of_lasting (h : e.Shared settings) (hsettings : e'.settings = e.settings)
    (hactive : e'.active = e.active)
    (hlasting : ∀ I, Catalog.Lasting (fun _ => True) I → I e.catalog → I e'.catalog)
    (hnumbered : e'.repository.Numbered) :
    e'.Shared settings ∧ (e.active = none → e'.catalog = e.catalog) := by
  have hsame : e.active = none → e'.catalog = e.catalog := fun ha =>
    hlasting _ (Catalog.lasting_shut h.consistent (h.isSealed ha) (h.empty ha)) rfl
  refine ⟨⟨hsettings.trans h.settings_eq, ?_, fun ha => ?_, fun ha => ?_, hnumbered⟩, hsame⟩
  · exact hlasting _ Catalog.lasting_consistent h.consistent
  · rw [hactive] at ha
    rw [hsame ha]
    exact h.isSealed ha
  · rw [hactive] at ha
    rw [hsame ha]
    exact h.empty ha

theorem transact (h : e.Shared settings) (orders : Nat → Arrangement (Path × Action))
    (edits : List Edit) : (e.transact orders edits).1.Shared settings ∧
      (e.active = none → (e.transact orders edits).1.catalog = e.catalog) := by
  refine h.of_lasting rfl rfl (fun I hI hcatalog => ?_) h.numbered
  exact catalog_follow hI orders _ hcatalog

theorem advance (h : e.Shared settings) (i : Nat) :
    (e.advance i).Shared settings ∧ (e.active = none → (e.advance i).catalog = e.catalog) := by
  unfold Engine.advance
  split
  · next x _ =>
    refine h.of_lasting (settings_put ..) (active_put ..) (fun I hI hcatalog => ?_)
      ((repository_put ..).symm ▸ h.numbered)
    rw [catalog_put]
    exact hI.step e.repository (fun _ => x.signal.raised) x.pass hcatalog
  · exact ⟨h, fun _ => rfl⟩

theorem deactivate (h : e.Shared settings) (order : Arrangement Catalog.Entry) :
    (e.deactivate order).Shared settings := by
  cases ha : e.active with
  | none =>
    rw [deactivate_of_inactive ha]
    exact h
  | some a =>
    rw [deactivate_of_active ha]
    exact {
      settings_eq := h.settings_eq
      consistent :=
        Catalog.consistent_clearIn (Catalog.consistent_close h.consistent) (order.perm _)
      isSealed := fun _ => Catalog.isSealed_clearIn _ _
      empty := fun _ =>
        Catalog.visible_clearIn (Catalog.consistent_close h.consistent) (order.perm _)
      numbered := h.numbered.unsubscribed a.subscriptions }

end Shared

/-! ## Incidents -/

inductive Incident where
  | own (event : Event)
  | other (visit : Repository.Visit)

def meet (e : Engine) : Incident → Engine
  | .own event => e.undergo event
  | .other visit => { e with repository := e.repository.visit visit }

def afterAll (settings : Settings) (history : List Incident) : Engine :=
  history.foldl meet (Engine.new settings)

def Incident.Activates (e : Engine) : Incident → Prop
  | .own (.move (.activate gate)) => (Engine.activate { e with gate }).2 = .ok ()
  | _ => False

instance (e : Engine) : DecidablePred (Incident.Activates e)
  | .own (.move (.activate gate)) =>
    inferInstanceAs (Decidable ((Engine.activate { e with gate }).2 = .ok ()))
  | .own (.move (.deactivate _)) | .own (.move (.advance _)) | .own (.move (.transact _ _))
  | .own (.shutdown _) | .own (.failReads _) | .own (.refuse _) | .own (.grant _) | .other _ =>
    isFalse id

def Quiet (e : Engine) : List Incident → Prop
  | [] => True
  | i :: later => ¬ i.Activates e ∧ (e.meet i).Quiet later

instance decidableQuiet (e : Engine) : DecidablePred e.Quiet
  | [] => isTrue trivial
  | i :: later =>
    have := decidableQuiet (e.meet i) later
    inferInstanceAs (Decidable (_ ∧ _))

theorem Shared.meet (h : e.Shared settings) (i : Incident) : (e.meet i).Shared settings := by
  cases i with
  | other visit => exact { h with numbered := h.numbered.visit visit }
  | own event =>
    cases event with
    | move m =>
      cases m with
      | activate gate => exact activate (e := { e with gate }) { h with }
      | deactivate order => exact h.deactivate order
      | advance i => exact (h.advance i).1
      | transact orders edits => exact (h.transact orders edits).1
    | shutdown order => exact h.deactivate order
    | failReads on => exact { h with }
    | refuse on => exact { h with }
    | grant quota => exact { h with }

theorem shared_afterAll (settings : Settings) (history : List Incident) :
    (afterAll settings history).Shared settings :=
  List.foldlRecOn history meet (Shared.new settings) fun _ h i _ => h.meet i

theorem active_advance (e : Engine) (i : Nat) : (e.advance i).active = e.active := by
  unfold advance
  split
  · exact active_put ..
  · rfl

/-- Only an activation that succeeds ends inactivity, and nothing else touches the catalog. -/
theorem meet_of_inactive (h : e.Shared settings) (ha : e.active = none) {i : Incident}
    (hi : ¬ i.Activates e) : (e.meet i).active = none ∧ (e.meet i).catalog = e.catalog := by
  have hstays : ∀ order, (e.deactivate order).active = none ∧
      (e.deactivate order).catalog = e.catalog := by
    intro order
    rw [deactivate_of_inactive ha]
    exact ⟨ha, rfl⟩
  cases i with
  | other visit => exact ⟨ha, rfl⟩
  | own event =>
    cases event with
    | move m =>
      cases m with
      | activate gate =>
        cases hresult : (Engine.activate { e with gate }).2 with
        | ok _ => exact absurd hresult hi
        | error error =>
          obtain ⟨issued, gate', quota, heq⟩ :=
            activate_failed (e := { e with gate }) { h with } ha hresult
          show (Engine.activate { e with gate }).1.active = none ∧
            (Engine.activate { e with gate }).1.catalog = e.catalog
          rw [heq]
          exact ⟨ha, rfl⟩
      | deactivate order => exact hstays order
      | advance i => exact ⟨(active_advance e i).trans ha, (h.advance i).2 ha⟩
      | transact orders edits => exact ⟨ha, (h.transact orders edits).2 ha⟩
    | shutdown order => exact hstays order
    | failReads on => exact ⟨ha, rfl⟩
    | refuse on => exact ⟨ha, rfl⟩
    | grant quota => exact ⟨ha, rfl⟩

theorem quiet_keeps (h : e.Shared settings) (ha : e.active = none) {later : List Incident}
    (hquiet : e.Quiet later) :
    (later.foldl meet e).active = none ∧ (later.foldl meet e).catalog = e.catalog := by
  induction later generalizing e with
  | nil => exact ⟨ha, rfl⟩
  | cons i later ih =>
    obtain ⟨hactive, hcatalog⟩ := meet_of_inactive h ha hquiet.1
    obtain ⟨hactive', hcatalog'⟩ := ih (h.meet i) hactive hquiet.2
    exact ⟨hactive', hcatalog'.trans hcatalog⟩

/-- Let an inactive engine have any history, in which others may have used its repository too. Its
activation fails if an entry of the settings is no absolute path, if the connection is refused, or
if any of the subscriptions is. Whenever it fails, the same subscriptions are live as before and as
many connections are open; the catalog is the same, with its mappings, its seal and all that its
board was told, and so are the state of the first pass and the passes that are still held. Nothing
that happens later touches the catalog until an activation succeeds. -/
theorem failed_activation_leaves_no_trace (settings : Settings) (henabled : settings.enabled = true)
    (history : List Incident) (ha : (afterAll settings history).active = none)
    (gate : Option Pass.Gate) :
    let e := { afterAll settings history with gate }
    let result := e.activate
    ((∃ error, result.2 = .error error) ↔
      (∃ entry ∈ settings.entries, (Path.ofString entry.2).normalize? = none) ∨
      e.repository.refusing = true ∨
      ∃ paths, settings.watched = .ok paths ∧
        ((∃ k, e.quota = some k ∧ k < paths.length) ∨ ∃ p ∈ paths, p.normalize? = none)) ∧
    ∀ error, result.2 = .error error →
      result.1.repository.subscriptions = e.repository.subscriptions ∧
      result.1.repository.connections = e.repository.connections ∧
      result.1.catalog = e.catalog ∧ result.1.bootstrap = e.bootstrap ∧
      result.1.held = e.held ∧ result.1.active = none ∧
      ∀ later, result.1.Quiet later → (later.foldl meet result.1).catalog = e.catalog := by
  intro e result
  have h : e.Shared settings := { shared_afterAll settings history with }
  have hactive : e.active = none := ha
  constructor
  · have hfails := activate_fails_iff hactive (h.settings_eq ▸ henabled)
    rw [h.settings_eq] at hfails
    exact hfails
  · intro error hfail
    obtain ⟨issued, gate, quota, heq⟩ := activate_failed h hactive hfail
    have hnext : result.1.Shared settings := h.activate
    rw [show result.1 = _ from heq] at hnext ⊢
    refine ⟨rfl, rfl, rfl, rfl, rfl, ha, fun later hquiet => ?_⟩
    exact (quiet_keeps hnext ha hquiet).2

/-- The second subscription is refused while somebody else has one and the pass of an older activation
is held. The pass goes on later, from its query to its end, and another activation fails. -/
theorem failed_activation_leaves_no_trace_refused :
    let settings := Settings.enabledFor ["/content/a", "/content/b"]
    let history : List Incident := [.other (.subscribe (.ofString "/content")), .other .connect,
      .own (.move (.activate (some .query))), .own (.shutdown .asListed), .own (.grant (some 1))]
    let later : List Incident := [
      .own (.move (.transact (fun _ => .asListed)
        [.declare (.ofString "/content/a") "/s" false false])),
      .own (.move (.advance 0)), .own (.move (.advance 0)), .own (.move (.advance 0)),
      .own (.move (.activate none))]
    let e := afterAll settings history
    let result := e.activate
    e.held.length = 1 ∧ result.2 = .error (.repository .feedRefused) ∧
    result.1.repository.issued = e.repository.issued + 1 ∧
    result.1.repository.subscriptions = [⟨0, .ofString "/content"⟩] ∧
    result.1.repository.connections = 1 ∧ result.1.held = e.held ∧
    (later.foldl meet result.1).held = [] ∧ (later.foldl meet result.1).catalog = e.catalog := by
  intro settings history later e result
  have hfail : result.2 = .error (.repository .feedRefused) := by decide
  obtain ⟨-, hsame⟩ :=
    failed_activation_leaves_no_trace settings rfl history (by decide) none
  obtain ⟨hsubscriptions, hconnections, -, -, hheld, -, hlater⟩ := hsame _ hfail
  have hquiet : result.1.Quiet later := by decide
  exact ⟨by decide, hfail, by decide, hsubscriptions.trans (by decide),
    hconnections.trans (by decide), hheld, by decide, hlater later hquiet⟩

end Engine

end Graft
