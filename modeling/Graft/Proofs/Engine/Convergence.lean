import Graft.Proofs.Batch.Tracking
import Graft.Proofs.Engine.Bootstrap
import Graft.Proofs.Engine.Moves

/-!
# The first pass and live changes

An engine that watches one path is activated and deactivated at any time, its repository changes
meanwhile, and its passes are held anywhere and for as long as one likes, also beyond their activation.
The catalog is to show what the repository declares once the first pass has finished.

It does not always (`overtaken_candidate`). A pass that is held while it reads a candidate registers
what it has read, although the candidate may have changed in between, and nothing tells of the change
again. A record of these nodes (`astrayAfter`) is kept along with every engine that is reached: a node
comes in when it is registered as it no longer is, and goes out when it is registered as it is, or when
a transaction attends to it. The record is exact. While the engine is active all other nodes are in
line or still to be done by the first pass (`Live`), and once that has finished the nodes in the record
are those that are out of line (`reached_converges`).
-/

namespace Graft.Engine

/-! ## Moves that fit, and what they lead astray -/

/-- Edits are made below the watched path. -/
def Move.Fits (watched : Path) (e : Engine) : Move → Prop
  | .transact _ edits => e.repository.tree.Admits watched edits
  | .activate _ | .deactivate _ | .advance _ => True

instance (watched : Path) (e : Engine) : DecidablePred (Move.Fits watched e)
  | .transact _ edits => inferInstanceAs (Decidable (e.repository.tree.Admits watched edits))
  | .activate _ | .deactivate _ | .advance _ => isTrue trivial

/-- The nodes that are astray after a move, if the given ones are before. -/
def astrayAfter (e : Engine) (watched : Path) (astray : List Path) : Move → List Path
  | .activate _ => astray
  | .deactivate _ => []
  | .advance i =>
    match e.held[i]? with
    | some x => if e.active.isSome then x.pass.astrayAfter e.repository astray else astray
    | none => astray
  | .transact _ edits =>
    astray.filter fun p => ¬ e.catalog.Attends (e.repository.transact edits).1 e.settings.queries
      ((e.repository.tree.transact edits).changes.filter (·.path.isWithin watched)) p

/-- Settings under which an engine watches one path and asks for the declarations there. -/
structure Watches (settings : Settings) (watched : Path) : Prop where
  enabled : settings.enabled = true
  isWord : watched.IsWord
  paths : settings.watched = .ok [watched]
  queries : settings.queries = [Repository.declarationsQuery watched]

/-- What comes of a new engine by moves that fit, and the nodes that are astray then. -/
inductive Reached (settings : Settings) (watched : Path) : Engine → List Path → Prop where
  | new : Reached settings watched (Engine.new settings) []
  | move {e astray m} : Reached settings watched e astray → m.Fits watched e →
    Reached settings watched (e.move m) (e.astrayAfter watched astray m)

/-! ## What moves keep -/

/-- What holds of an engine with the activation `a`. -/
structure Live (watched : Path) (a : Activation) (astray : List Path) (e : Engine) : Prop where
  current : a.generation = e.generation
  subscribed : ∃ id, a.subscriptions = [id] ∧ e.repository.subscriptions = [⟨id, watched⟩]
  isOpen : e.catalog.isSealed = false
  sound : e.catalog.SoundBut e.repository astray
  pending : ∀ h ∈ e.held, h.generation = e.generation →
    e.bootstrap = .running ∧ h.signal.raised = false ∧
      h.pass.Awaits watched e.catalog e.repository astray
  ended : (∀ h ∈ e.held, h.generation ≠ e.generation) →
    (a.crashed = true ∧ e.bootstrap = .running) ∨
      (∃ report, e.bootstrap = .finished report) ∧
        ∀ p, p ∉ astray → e.catalog.InLineAt e.repository p

/-- What holds of every engine that is reached. -/
structure Invariant (settings : Settings) (watched : Path) (e : Engine) (astray : List Path) :
    Prop where
  settings_eq : e.settings = settings
  calm : e.repository.Calm watched
  connects : e.repository.refusing = false
  unlimited : e.quota = none
  consistent : e.catalog.Consistent
  distinct : (e.held.map (·.generation)).Nodup
  not_newer : ∀ h ∈ e.held, h.generation ≤ e.generation
  tame : ∀ h ∈ e.held, h.pass.Tame
  resting : e.active = none → e.Resting ∧ astray = []
  live : ∀ a, e.active = some a → e.Live watched a astray

variable {settings : Settings} {watched : Path} {e : Engine} {a : Activation} {astray : List Path}

theorem invariant_new (settings : Settings) (watched : Path) :
    Invariant settings watched (Engine.new settings) [] where
  settings_eq := rfl
  calm := ⟨rfl, fun _ _ h => nomatch h⟩
  connects := rfl
  unlimited := rfl
  consistent := Catalog.consistent_empty
  distinct := List.nodup_nil
  not_newer _ h := absurd h List.not_mem_nil
  tame _ h := absurd h List.not_mem_nil
  resting _ := ⟨⟨rfl, rfl, rfl, rfl, fun _ h => absurd h List.not_mem_nil⟩, rfl⟩
  live _ h := nomatch h

/-! ## Transactions -/

/-- An engine with one subscription follows the part of the changes that concerns it. -/
theorem transact_of_subscribed {id : Nat} (ha : e.active = some a) (hids : a.subscriptions = [id])
    (h : e.repository.subscriptions = [⟨id, watched⟩])
    (orders : Nat → Arrangement (Path × Action)) (edits : List Edit) :
    (e.transact orders edits).1 =
      { e with
        repository := (e.repository.transact edits).1
        catalog := (e.catalog.follow (orders id) (e.repository.transact edits).1 e.settings.queries
          (Repository.Subscription.batch ⟨id, watched⟩
            (e.repository.tree.transact edits).changes)).1 } := by
  have hhears : e.hears id = true := by simp [hears, ha, hids]
  simp only [transact, Repository.transact, Repository.deliveries, h, List.map_cons, List.map_nil]
  by_cases hbatch : Repository.Subscription.batch ⟨id, watched⟩
      (e.repository.tree.transact edits).changes = []
  · rw [hbatch, Catalog.follow_nil]
    rfl
  · rw [List.filter_cons, if_pos (decide_eq_true hbatch), List.filter_nil, List.filter_cons,
      if_pos hhears, List.filter_nil]
    rfl

theorem calm_transact (h : e.repository.Calm watched) {edits : List Edit}
    (hedits : e.repository.tree.Admits watched edits) :
    (e.repository.transact edits).1.Calm watched :=
  ⟨h.reads, h.marked.transact hedits⟩

/-- While the engine is active a transaction brings nodes in line or leaves them as they are. -/
theorem Live.transact (h : e.Live watched a astray) (hcalm : e.repository.Calm watched)
    (hcons : e.catalog.Consistent) (orders : Nat → Arrangement (Path × Action)) {edits : List Edit}
    (hedits : e.repository.tree.Admits watched edits) (id : Nat) :
    let r := (e.repository.transact edits).1
    let c := (e.catalog.follow (orders id) r e.settings.queries
      (Repository.Subscription.batch ⟨id, watched⟩ (e.repository.tree.transact edits).changes)).1
    c.Open ∧ Catalog.Drifts e.repository e.catalog astray r c
      (e.astrayAfter watched astray (.transact orders edits)) := by
  intro r c
  have hcalm' := calm_transact hcalm hedits
  have hacc := accounts_batch (fun e he => (hedits.plain e he).1) (fun e he => (hedits.plain e he).2)
    e.repository.tree id
  have hattends := Catalog.carryOut_attends ⟨hcons, h.isOpen⟩ hcalm.reads hcalm'.reads
    hcalm'.marked.regular hcalm'.marked.noneOnParent hacc e.settings.queries ((orders id).perm _)
  refine ⟨(hattends watched).1, fun p => ?_⟩
  obtain ⟨-, hline, hsame⟩ := hattends p
  rw [astrayAfter, List.mem_filter, decide_eq_true_eq]
  by_cases hp : e.catalog.Attends r e.settings.queries
      (Repository.Subscription.batch ⟨id, watched⟩ (e.repository.tree.transact edits).changes) p
  · exact Or.inl (iff_of_true (hline hp) fun hmem => hmem.2 hp)
  · obtain ⟨hlook, hdeclared⟩ := hsame hp
    exact Or.inr ⟨hlook, hdeclared, and_iff_left hp⟩

theorem Invariant.transact (h : Invariant settings watched e astray)
    (orders : Nat → Arrangement (Path × Action)) {edits : List Edit}
    (hedits : e.repository.tree.Admits watched edits) :
    Invariant settings watched (e.transact orders edits).1
      (e.astrayAfter watched astray (.transact orders edits)) := by
  have hcalm := calm_transact h.calm hedits
  cases ha : e.active with
  | none =>
    obtain ⟨hrest, rfl⟩ := h.resting ha
    rw [transact_of_unsubscribed hrest.unsubscribed]
    refine { h with calm := hcalm, resting := ?_, live := ?_ }
    · exact fun _ => ⟨{ hrest with unsubscribed := hrest.unsubscribed }, rfl⟩
    · intro a hactive
      rw [ha] at hactive
      cases hactive
  | some a =>
    have hlive := h.live a ha
    obtain ⟨id, hids, hsub⟩ := hlive.subscribed
    obtain ⟨hopen, hdrifts⟩ := hlive.transact h.calm h.consistent orders hedits id
    rw [transact_of_subscribed ha hids hsub]
    refine { h with calm := hcalm, consistent := hopen.consistent, resting := ?_, live := ?_ }
    · intro hinactive
      rw [ha] at hinactive
      cases hinactive
    · intro a' ha'
      obtain rfl : a = a' := Option.some.inj (ha.symm.trans ha')
      refine ⟨hlive.current, ⟨id, hids, hsub⟩, hopen.unsealed, hdrifts.soundBut hlive.sound, ?_, ?_⟩
      · intro x hx hgeneration
        obtain ⟨hrunning, hsignal, hawaits⟩ := hlive.pending x hx hgeneration
        exact ⟨hrunning, hsignal, hawaits.drifts hdrifts⟩
      · intro hnone
        refine (hlive.ended hnone).imp_right ?_
        rintro ⟨hfinished, hline⟩
        exact ⟨hfinished, fun p => hdrifts.inLineAt (hline p)⟩

/-! ## Steps of held passes -/

/-- A step of a pass of an older activation. -/
theorem Live.put_of_ne (h : e.Live watched a astray) {i : Nat} {x : Held}
    (hx : e.held[i]? = some x) (hold : x.generation ≠ e.generation) {t : Catalog × Pass.Progress}
    {astray' : List Path} (hopen : t.1.Open)
    (hdrifts : Catalog.Drifts e.repository e.catalog astray e.repository t.1 astray') :
    (e.put i x t).Live watched a astray' := by
  have hbootstrap : (e.put i x t).bootstrap = e.bootstrap := by
    rw [bootstrap_put]
    split
    · exact if_neg hold
    · rfl
    · rfl
  refine {
    current := (generation_put ..).symm ▸ h.current
    subscribed := (repository_put ..).symm ▸ h.subscribed
    isOpen := (catalog_put ..).symm ▸ hopen.unsealed
    sound := ?_
    pending := ?_
    ended := ?_ }
  · rw [catalog_put, repository_put]
    exact hdrifts.soundBut h.sound
  · rw [hbootstrap, catalog_put, repository_put, generation_put]
    refine forall_held_put (fun y hy hcurrent => ?_) fun pass _ hcurrent => absurd hcurrent hold
    obtain ⟨hrunning, hsignal, hawaits⟩ := h.pending y hy hcurrent
    exact ⟨hrunning, hsignal, hawaits.drifts hdrifts⟩
  · rw [hbootstrap, catalog_put, repository_put, generation_put]
    intro hnone
    -- the pass that has moved is not the current one, so none of those that have not moved is
    have hbefore : ∀ y ∈ e.held, y.generation ≠ e.generation := by
      intro y hy
      by_cases heq : y = x
      · exact heq ▸ hold
      · exact hnone y (mem_held_put_of_ne hx hy heq)
    refine (h.ended hbefore).imp_right ?_
    rintro ⟨hfinished, hline⟩
    exact ⟨hfinished, fun p => hdrifts.inLineAt (hline p)⟩

/-- A step of the pass of the current activation. -/
theorem Live.put_of_eq (h : e.Live watched a astray) {i : Nat} {x : Held}
    (hx : e.held[i]? = some x) (hcurrent : x.generation = e.generation)
    (hdistinct : (e.held.map (·.generation)).Nodup) {t : Catalog × Pass.Progress}
    {astray' : List Path} (hopen : t.1.Open)
    (hdrifts : Catalog.Drifts e.repository e.catalog astray e.repository t.1 astray')
    (hcrash : t.2 ≠ .crashed) (hsees : t.2.Sees watched t.1 e.repository astray') :
    (e.put i x t).Live watched a astray' := by
  have hmem := List.mem_of_getElem? hx
  obtain ⟨hrunning, hsignal, -⟩ := h.pending x hmem hcurrent
  have hnodup := hdistinct.sublist (generations_put (t := t) hx)
  refine {
    current := (generation_put ..).symm ▸ h.current
    subscribed := (repository_put ..).symm ▸ h.subscribed
    isOpen := (catalog_put ..).symm ▸ hopen.unsealed
    sound := ?_
    pending := ?_
    ended := ?_ }
  · rw [catalog_put, repository_put]
    exact hdrifts.soundBut h.sound
  all_goals
    rw [bootstrap_put, catalog_put, repository_put, generation_put]
    obtain ⟨c, progress⟩ := t
  -- the pass goes on, or has ended; whichever, no other one is of this generation
  · intro y hy hy'
    cases progress with
    | held pass =>
      have hself : { x with pass } ∈ (e.put i x (c, .held pass)).held :=
        List.mem_set (List.getElem?_eq_some_iff.1 hx).1 _
      obtain rfl : y = { x with pass } :=
        List.inj_on_of_nodup_map hnodup hy hself (hy'.trans hcurrent.symm)
      exact ⟨hrunning, hsignal, hsees⟩
    | ended result =>
      obtain ⟨hi, rfl⟩ := List.getElem?_eq_some_iff.1 hx
      have hperm := (List.getElem_cons_eraseIdx_perm hi).map (·.generation)
      refine absurd ?_ (List.nodup_cons.1 (hperm.nodup_iff.2 hdistinct)).1
      exact List.mem_map.2 ⟨y, hy, hy'.trans hcurrent.symm⟩
    | crashed => exact absurd rfl hcrash
  · intro hnone
    cases progress with
    | held pass =>
      have hself : { x with pass } ∈ (e.put i x (c, .held pass)).held :=
        List.mem_set (List.getElem?_eq_some_iff.1 hx).1 _
      exact absurd hcurrent (hnone { x with pass } hself)
    | ended result =>
      obtain ⟨⟨report, rfl, hcancelled⟩, hline⟩ := hsees
      refine Or.inr ⟨⟨report, ?_⟩, hline⟩
      dsimp only
      rw [if_pos hcurrent, Bootstrap.ofResult, hcancelled]
      rfl
    | crashed => exact absurd rfl hcrash

theorem Invariant.advance (h : Invariant settings watched e astray) (hs : Watches settings watched)
    (i : Nat) :
    Invariant settings watched (e.advance i) (e.astrayAfter watched astray (.advance i)) := by
  rw [Engine.advance, astrayAfter]
  cases hx : e.held[i]? with
  | none => exact h
  | some x =>
    have hmem := List.mem_of_getElem? hx
    have htame := h.tame x hmem
    dsimp only
    generalize ht : x.pass.step e.repository (fun _ => x.signal.raised) e.catalog = t
    refine {
      settings_eq := (settings_put ..).trans h.settings_eq
      calm := (repository_put ..).symm ▸ h.calm
      connects := (repository_put ..).symm ▸ h.connects
      unlimited := (quota_put ..).trans h.unlimited
      consistent := ?_
      distinct := h.distinct.sublist (generations_put hx)
      not_newer := ?_
      tame := forall_held_put h.tame fun pass hpass => htame.step h.calm (ht ▸ hpass)
      resting := ?_
      live := ?_ }
    · rw [catalog_put, ← ht]
      exact (Catalog.lasting_consistent (D := fun _ => True)).step _ _ _ h.consistent
    · rw [generation_put]
      exact forall_held_put h.not_newer fun pass _ => h.not_newer x hmem
    · rw [active_put]
      intro ha
      obtain ⟨hrest, hastray⟩ := h.resting ha
      have hcatalog : t.1 = e.catalog := ht ▸
        (Catalog.lasting_shut h.consistent hrest.isSealed hrest.empty).step _ _ _ rfl
      rw [ha]
      exact ⟨hrest.put hmem hcatalog, hastray⟩
    · rw [active_put]
      intro a ha
      have hlive := h.live a ha
      have hopen : e.catalog.Open := ⟨h.consistent, hlive.isOpen⟩
      have hopen' : t.1.Open := ht ▸ (Catalog.lasting_open (D := fun _ => True)).step _ _ _ hopen
      have hdrifts : Catalog.Drifts e.repository e.catalog astray e.repository t.1
          (x.pass.astrayAfter e.repository astray) := ht ▸ htame.drifts hopen _ _ _
      rw [ha, Option.isSome_some, if_pos rfl]
      by_cases hcurrent : x.generation = e.generation
      · obtain ⟨-, hsignal, hawaits⟩ := hlive.pending x hmem hcurrent
        have hsees := hawaits.step htame hopen hs.isWord h.calm hlive.sound
        rw [hsignal] at ht
        rw [ht] at hsees
        exact hlive.put_of_eq hx hcurrent h.distinct hopen' hdrifts
          (ht ▸ Pass.step_ne_crashed _ _ _ _) hsees
      · exact hlive.put_of_ne hx hcurrent hopen' hdrifts

/-! ## Deactivation -/

theorem Invariant.deactivate (h : Invariant settings watched e astray)
    (order : Arrangement Catalog.Entry) :
    Invariant settings watched (e.deactivate order) [] := by
  cases ha : e.active with
  | none =>
    rw [deactivate_of_inactive ha]
    exact (h.resting ha).2 ▸ h
  | some a =>
    have hlive := h.live a ha
    obtain ⟨id, hids, hsub⟩ := hlive.subscribed
    -- with the new generation no held pass is current any more
    have hnewer : ∀ x ∈ e.held, x.generation ≠ e.generation + 1 := by
      intro x hx
      have hle := h.not_newer x hx
      omega
    rw [deactivate_of_active ha, hids]
    refine {
      settings_eq := h.settings_eq
      calm := ⟨h.calm.reads, h.calm.marked⟩
      connects := h.connects
      unlimited := h.unlimited
      consistent := ?_
      distinct := ?_
      not_newer := ?_
      tame := ?_
      resting := ?_
      live := fun _ h => nomatch h }
    · exact Catalog.consistent_clearIn (Catalog.consistent_close h.consistent) (order.perm _)
    · have hsame : (e.held.map fun x => if x.generation = a.generation then
          { x with signal := x.signal.raise } else x).map (·.generation) =
          e.held.map (·.generation) := by
        rw [List.map_map]
        refine List.map_congr_left fun x _ => ?_
        show Held.generation (if _ then _ else _) = _
        split
        · rfl
        · rfl
      rw [hsame]
      exact h.distinct
    · intro y hy
      obtain ⟨x, hx, hgeneration, -⟩ := held_of_mem_raised hy
      rw [hgeneration]
      exact (h.not_newer x hx).trans (Nat.le_succ _)
    · intro y hy
      obtain ⟨x, hx, -, hpass, -⟩ := held_of_mem_raised hy
      rw [hpass]
      exact h.tame x hx
    · intro _
      refine ⟨⟨rfl, Catalog.isSealed_clearIn _ _,
        Catalog.visible_clearIn (Catalog.consistent_close h.consistent) (order.perm _), ?_, ?_⟩, rfl⟩
      · show e.repository.subscriptions.filter (·.id ≠ id) = []
        rw [hsub]
        simp
      · intro y hy
        obtain ⟨x, hx, hgeneration, -⟩ := held_of_mem_raised hy
        rw [hgeneration]
        exact hnewer x hx

/-! ## Activation -/

/-- The repository with one more connection and a subscription to the watched path. -/
def joined (r : Repository) (watched : Path) : Repository :=
  { r with
    connections := r.connections + 1
    subscriptions := r.subscriptions ++ [⟨r.issued, watched⟩]
    issued := r.issued + 1 }

theorem activate_of_inactive (hs : Watches e.settings watched) (hc : e.repository.refusing = false)
    (hq : e.quota = none) (ha : e.active = none) :
    e.activate.1 =
      { e with
        repository := joined e.repository watched
        catalog := e.catalog.reopen
        gate := none
        quota := none }.bootstrapWith [e.repository.issued] e.gate := by
  have hconnect : e.repository.connect =
      .ok { e.repository with connections := e.repository.connections + 1 } := by
    rw [Repository.connect, if_neg (by simp [hc])]
  have hsubscribe : ∀ r : Repository, r.subscribe watched =
      .ok ({ r with
        subscriptions := r.subscriptions ++ [⟨r.issued, watched⟩]
        issued := r.issued + 1 }, r.issued) := by
    intro r
    rw [Repository.subscribe, Path.isNormal_iff.1 hs.isWord.normal]
  have hguard : ¬ (e.active.isSome || !e.settings.enabled) = true := by simp [ha, hs.enabled]
  rw [activate, if_neg hguard, hs.paths]
  simp only [hconnect, subscribeAll, hq, hsubscribe]
  rfl

/-- The state after an activation, in which `new` has the first pass if that is held. -/
theorem Invariant.begun (h : Invariant settings watched e astray) (ha : e.active = none)
    {c : Catalog} {b : Bootstrap} (crashed : Bool) (new : List Held) (hopen : c.Open)
    (hsound : c.SoundBut (joined e.repository watched) [])
    (hone : (new.map (·.generation)).Nodup)
    (hnew : ∀ x ∈ new, x.generation = e.generation + 1 ∧ x.pass.Tame ∧ b = .running ∧
      x.signal.raised = false ∧ x.pass.Awaits watched c (joined e.repository watched) [])
    (hnone : new = [] → (crashed = true ∧ b = .running) ∨
      (∃ report, b = .finished report) ∧
        ∀ p, p ∉ [] → c.InLineAt (joined e.repository watched) p) :
    Invariant settings watched
      { e with
        repository := joined e.repository watched
        catalog := c
        active := some ⟨e.generation + 1, [e.repository.issued], crashed⟩
        bootstrap := b
        generation := e.generation + 1
        held := e.held ++ new
        gate := none
        quota := none } [] := by
  obtain ⟨hrest, -⟩ := h.resting ha
  have hsub : (joined e.repository watched).subscriptions = [⟨e.repository.issued, watched⟩] := by
    rw [joined, hrest.unsubscribed]
    rfl
  have hall : ∀ {P : Held → Prop}, (∀ x ∈ e.held, P x) → (∀ x ∈ new, P x) →
      ∀ x ∈ e.held ++ new, P x := by
    intro P hP hP' x hx
    rcases List.mem_append.1 hx with hx | hx
    · exact hP x hx
    · exact hP' x hx
  refine {
    settings_eq := h.settings_eq
    calm := ⟨h.calm.reads, h.calm.marked⟩
    connects := h.connects
    unlimited := rfl
    consistent := hopen.consistent
    distinct := ?_
    not_newer := ?_
    tame := hall h.tame fun x hx => (hnew x hx).2.1
    resting := fun hinactive => nomatch hinactive
    live := ?_ }
  · rw [List.map_append, List.nodup_append]
    refine ⟨h.distinct, hone, ?_⟩
    rintro k hk k' hk' rfl
    obtain ⟨x, hx, rfl⟩ := List.mem_map.1 hk
    obtain ⟨x', hx', heq⟩ := List.mem_map.1 hk'
    have hle := h.not_newer x hx
    have hgeneration := (hnew x' hx').1
    omega
  · exact hall (fun x hx => (h.not_newer x hx).trans (Nat.le_succ _)) fun x hx => (hnew x hx).1.le
  · intro a ha
    obtain rfl := Option.some.inj ha
    refine ⟨rfl, ⟨_, rfl, hsub⟩, hopen.unsealed, hsound, ?_, ?_⟩
    · -- whatever is held from before belongs to an older activation
      refine hall (fun x hx heq => ?_) fun x hx _ => (hnew x hx).2.2
      have hle := h.not_newer x hx
      rw [heq] at hle
      exact absurd hle (Nat.not_succ_le_self _)
    · intro hcurrent
      refine hnone (List.eq_nil_iff_forall_not_mem.2 fun x hx => ?_)
      exact hcurrent x (List.mem_append_right _ hx) (hnew x hx).1

theorem Invariant.activate (h : Invariant settings watched e astray) (hs : Watches settings watched) :
    Invariant settings watched e.activate.1 astray := by
  cases ha : e.active with
  | some a =>
    rw [activate_of_active ha]
    exact h
  | none =>
    obtain ⟨hrest, rfl⟩ := h.resting ha
    have hsettings := h.settings_eq
    have hcalm : (joined e.repository watched).Calm watched := ⟨h.calm.reads, h.calm.marked⟩
    have hreopen : e.catalog.reopen.Open := ⟨h.consistent, rfl⟩
    have hempty : ∀ p, e.catalog.reopen.lookup p = none := by
      intro p
      show e.catalog.visible.get? p = none
      rw [hrest.empty]
      rfl
    have hstart := Pass.start_awaits hreopen hs.isWord hcalm hempty e.gate
    rw [activate_of_inactive (hsettings ▸ hs) h.connects h.unlimited ha, bootstrapWith]
    rw [← hs.queries, ← hsettings] at hstart
    generalize Pass.start (joined e.repository watched) _ _ _ = result at hstart ⊢
    obtain ⟨c, progress⟩ := result
    obtain ⟨hopen, hsound, htame, hsees⟩ := hstart
    have hbegun := fun crashed b new => h.begun ha (b := b) crashed new hopen hsound
    cases progress with
    | ended result =>
      obtain ⟨⟨report, rfl, hcancelled⟩, hline⟩ := hsees
      have hend : Bootstrap.ofResult (.ok report) = .finished report := by
        rw [Bootstrap.ofResult, hcancelled]
        rfl
      have hnone := hbegun false _ [] List.nodup_nil (fun x hx => absurd hx List.not_mem_nil)
        fun _ => Or.inr ⟨⟨report, hend⟩, hline⟩
      rw [List.append_nil] at hnone
      exact hnone
    | held pass =>
      refine hbegun false .running [⟨e.generation + 1, .fresh, pass⟩] (List.nodup_singleton _)
        (fun x hx => ?_) fun hnil => nomatch hnil
      obtain rfl := List.mem_singleton.1 hx
      exact ⟨rfl, htame pass rfl, rfl, rfl, hsees⟩
    | crashed =>
      have hnone := hbegun true .running [] List.nodup_nil
        (fun x hx => absurd hx List.not_mem_nil) fun _ => Or.inl ⟨rfl, rfl⟩
      rw [List.append_nil] at hnone
      exact hnone

/-! ## Every engine that is reached -/

theorem Reached.invariant (hs : Watches settings watched) (h : Reached settings watched e astray) :
    Invariant settings watched e astray := by
  induction h with
  | new => exact invariant_new settings watched
  | @move e astray m _ hfits ih =>
    cases m with
    | activate gate =>
      have hinv : Invariant settings watched { e with gate } astray := { ih with
        resting := fun ha => ⟨{ (ih.resting ha).1 with idle := (ih.resting ha).1.idle },
          (ih.resting ha).2⟩
        live := fun a ha => { ih.live a ha with current := (ih.live a ha).current } }
      exact hinv.activate hs
    | deactivate order => exact ih.deactivate order
    | advance i => exact ih.advance hs i
    | transact orders edits => exact ih.transact orders hfits

/-- A node goes astray only if a pass is held that has read what is no longer there. -/
theorem astrayAfter_nil (h : ∀ x ∈ e.held, x.pass.UpToDate e.repository) (watched : Path) (m : Move) :
    e.astrayAfter watched [] m = [] := by
  cases m with
  | activate gate => rfl
  | deactivate order => rfl
  | transact orders edits => rfl
  | advance i =>
    rw [astrayAfter]
    cases hx : e.held[i]? with
    | none => rfl
    | some x =>
      dsimp only
      rw [(h x (List.mem_of_getElem? hx)).astrayAfter_nil, ite_self]

/-- While the engine is active its first pass is running or has finished, whatever is active outside
the record of nodes astray is declared by the node at its root, and the nodes in the record are out of
line. Once the first pass has finished no other node is. So the catalog shows exactly what the
repository declares if and only if no node is astray. An inactive engine shows nothing. No move leads
the first node astray unless a pass is held that has read of its candidate what no longer stands
there. -/
theorem reached_converges (hs : Watches settings watched) (h : Reached settings watched e astray) :
    (e.active.isSome = true →
      (e.isPending = true ∨ e.isInitialized = true) ∧
      (∀ root m, root ∉ astray → e.catalog.lookup root = some m →
        e.repository.tree.contains root = true ∧ (e.repository.declaration root).mapping = .ok m) ∧
      (∀ p ∈ astray, e.catalog.lookup p ≠ (e.repository.declaration p).mapping.toOption) ∧
      (e.isInitialized = true →
        (∀ p, e.catalog.lookup p = (e.repository.declaration p).mapping.toOption ↔ p ∉ astray) ∧
        ((∀ m, m ∈ e.catalog.mappings ↔
          ∃ p, e.repository.tree.contains p = true ∧ (e.repository.declaration p).mapping = .ok m) ↔
            astray = []))) ∧
    (e.active = none → e.catalog.mappings = [] ∧ astray = []) ∧
    (astray = [] → (∀ x ∈ e.held, x.pass.UpToDate e.repository) →
      ∀ m, e.astrayAfter watched astray m = []) := by
  have hinv := h.invariant hs
  refine ⟨?_, ?_, fun hnil hfresh m => hnil ▸ astrayAfter_nil hfresh watched m⟩
  · intro hactive
    obtain ⟨a, ha⟩ := Option.isSome_iff_exists.1 hactive
    have hlive := hinv.live a ha
    have hreads := hinv.calm.reads
    refine ⟨?_, ?_, hlive.sound.off, ?_⟩
    · by_cases hheld : ∃ x ∈ e.held, x.generation = e.generation
      · obtain ⟨x, hx, hcurrent⟩ := hheld
        obtain ⟨hrunning, -⟩ := hlive.pending x hx hcurrent
        exact Or.inl (by rw [isPending, hrunning]; rfl)
      · rcases hlive.ended fun x hx heq => hheld ⟨x, hx, heq⟩ with
          ⟨-, hrunning⟩ | ⟨⟨report, hfinished⟩, -⟩
        · exact Or.inl (by rw [isPending, hrunning]; rfl)
        · exact Or.inr (by rw [isInitialized, hfinished])
    · intro root m hroot hm
      rcases hlive.sound.sound root hroot with hnone | hline
      · rw [hnone] at hm
        cases hm
      · have hdeclared := Declaration.toOption_mapping_eq_some_iff.1 (hline.symm.trans hm)
        exact ⟨Repository.contains_of_mapping hreads hdeclared, hdeclared⟩
    · intro hinit
      have hidle : e.bootstrap ≠ .running := by
        intro hrunning
        rw [isInitialized, hrunning] at hinit
        cases hinit
      have hheld : ∀ x ∈ e.held, x.generation ≠ e.generation :=
        fun x hx hcurrent => hidle (hlive.pending x hx hcurrent).1
      obtain ⟨-, hline⟩ := (hlive.ended hheld).resolve_left fun hcrash => hidle hcrash.2
      have hiff : ∀ p, e.catalog.lookup p = (e.repository.declaration p).mapping.toOption ↔
          p ∉ astray :=
        fun p => ⟨fun heq hmem => hlive.sound.off p hmem heq, hline p⟩
      refine ⟨hiff, ?_⟩
      have hexact := Catalog.exact_iff_lookup hinv.consistent hinv.calm.marked.regular
        hinv.calm.marked.noneOnParent
      refine hexact.trans ?_
      simp only [hiff, List.eq_nil_iff_forall_not_mem]
  · intro hinactive
    obtain ⟨hrest, hastray⟩ := hinv.resting hinactive
    rw [Catalog.mappings, hrest.empty]
    exact ⟨rfl, hastray⟩

/-- There are settings for every path that a query can name. -/
theorem watches_one (hword : watched.IsWord) :
    Watches ⟨true, [toString watched], none, [Repository.declarationsQuery watched]⟩ watched where
  enabled := rfl
  isWord := hword
  paths := by
    have hpath : Path.ofString (toString watched) = watched := by
      rw [Path.ofString, Repository.toList_toString]
    have hentry : Settings.entryPath (.observed, toString watched) = .ok watched := by
      rw [Settings.entryPath, hpath, Path.isNormal_iff.1 hword.normal]
    show ([(Settings.Key.observed, toString watched)].mapM Settings.entryPath).map List.eraseDups = _
    rw [List.mapM_cons, hentry]
    rfl
  queries := rfl

/-- A node is taken away when the first pass has read two fields of it, and its mapping is active in
the end although nobody declares it. That is so until something is written at the node again. -/
theorem reached_converges_overtaken :
    let watched := Path.ofString "/content"
    let a := Path.ofString "/content/a"
    let settings : Settings :=
      ⟨true, [toString watched], none, [Repository.declarationsQuery watched]⟩
    let orders := fun _ : Nat => Arrangement.asListed
    let e₁ := (Engine.new settings).move (.transact orders [.declare a "/x" false false])
    let e₂ := e₁.move (.activate (some (.read 2)))
    let e₃ := e₂.move (.transact orders
      [.removeNode a, .declare (.ofString "/content/b") "/y" false true])
    let e₄ := ((e₃.move (.advance 0)).move (.advance 0)).move (.advance 0)
    let e₅ := e₄.move (.transact orders [.setProperty a "overlayable" (.flag true)])
    e₃.isPending = true ∧ e₄.isInitialized = true ∧ e₄.catalog.mappings.length = 2 ∧
      e₄.catalog.lookup a ≠ (e₄.repository.declaration a).mapping.toOption ∧
      e₅.isInitialized = true ∧ e₅.catalog.mappings.length = 1 ∧ ∀ m, m ∈ e₅.catalog.mappings ↔
        ∃ p, e₅.repository.tree.contains p = true ∧ (e₅.repository.declaration p).mapping = .ok m := by
  intro watched a settings orders e₁ e₂ e₃ e₄ e₅
  have hs : Watches settings watched := watches_one ⟨by decide, by decide⟩
  have hmove : ∀ {e astray astray'} (m : Move), Reached settings watched e astray →
      m.Fits watched e → e.astrayAfter watched astray m = astray' →
      Reached settings watched (e.move m) astray' := fun m h hfits heq => heq ▸ .move h hfits
  have h₁ : Reached settings watched e₁ [] := hmove _ .new (by decide) rfl
  have h₂ : Reached settings watched e₂ [] := hmove (.activate _) h₁ trivial rfl
  have h₃ : Reached settings watched e₃ [] := hmove _ h₂ (by decide) rfl
  have hread : Reached settings watched (e₃.move (.advance 0)) [] :=
    hmove (.advance 0) h₃ trivial (by decide)
  have hregister : Reached settings watched ((e₃.move (.advance 0)).move (.advance 0)) [a] :=
    hmove (.advance 0) hread trivial (by decide)
  have h₄ : Reached settings watched e₄ [a] := hmove (.advance 0) hregister trivial (by decide)
  have h₅ : Reached settings watched e₅ [] := hmove _ h₄ (by decide) (by decide)
  obtain ⟨-, -, hoff, -⟩ := (reached_converges hs h₄).1 (by decide)
  obtain ⟨-, -, -, hexact⟩ := (reached_converges hs h₅).1 (by decide)
  have hinit : e₅.isInitialized = true := by decide
  exact ⟨by decide, by decide, by decide, hoff a List.mem_cons_self, hinit, by decide,
    (hexact hinit).2.2 rfl⟩

/-- A node is taken away while the first pass reads it. When the first pass has finished its mapping is
active and nobody declares it. -/
theorem overtaken_candidate :
    let watched := Path.ofString "/content"
    let settings : Settings :=
      ⟨true, [toString watched], none, [Repository.declarationsQuery watched]⟩
    let orders := fun _ : Nat => Arrangement.asListed
    let insert := Move.transact orders [.declare (.ofString "/content/a") "/x" false false]
    let remove := Move.transact orders [.removeNode (.ofString "/content/a")]
    let e₁ := (Engine.new settings).move insert
    let e₂ := e₁.move (.activate (some (.read 2)))
    let e₃ := e₂.move remove
    let e₄ := e₃.complete 0
    insert.Fits watched (Engine.new settings) ∧ remove.Fits watched e₂ ∧
      e₄.active.isSome = true ∧ e₄.isInitialized = true ∧ e₄.catalog.mappings.length = 1 ∧
      ∀ m ∈ e₄.catalog.mappings, ¬ e₄.repository.Declares m := by
  decide

end Graft.Engine
