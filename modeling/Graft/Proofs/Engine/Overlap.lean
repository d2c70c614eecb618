import Graft.Proofs.Batch.Parts
import Graft.Proofs.Engine.Lifecycle
import Graft.Proofs.Engine.Watched

/-!
# Watching several paths

An engine has a subscription for each path that it watches, and the paths may lie within each other
or be the same. It follows a transaction once for each subscription. If one of them hears of all
edits then the others change nothing: the engine shows afterwards what the repository declares, and
its board was told once of each root that has changed (`transact_tells_once`).

What a subscription hears of is decided by the normal form of the watched path, and the normal form
is taken of a path that is a normal form already. That may be a shorter path (`transact_unnoticed`).
-/

namespace Graft.Engine

variable {settings : Settings} {e : Engine} {a : Activation}

/-! ## The tree over a life -/

theorem tree_deactivate (e : Engine) (order : Arrangement Catalog.Entry) :
    (e.deactivate order).repository.tree = e.repository.tree := by
  cases ha : e.active with
  | none => rw [deactivate_of_inactive ha]
  | some a =>
    rw [deactivate_of_active ha, Repository.foldl_unsubscribe]
    rfl

theorem repository_bootstrapWith (e : Engine) (ids : List Nat) (gate : Option Pass.Gate) :
    (e.bootstrapWith ids gate).repository = e.repository := by
  unfold bootstrapWith
  dsimp only
  split
  · rfl
  · rfl
  · rfl

theorem tree_activate (e : Engine) : e.activate.1.repository.tree = e.repository.tree := by
  unfold activate
  split
  · rfl
  split
  · rfl
  next paths hpaths =>
  split
  · rfl
  next connected hconnect =>
  have htree : connected.tree = e.repository.tree := by
    unfold Repository.connect at hconnect
    split at hconnect
    · cases hconnect
    · rw [← Except.ok.inj hconnect]
  obtain ⟨r, quota, new, issued, rfl, ⟨hsubscribe, -⟩ | ⟨error, hsubscribe⟩⟩ :=
    subscribeAll_cases connected e.quota [] paths
  · rw [hsubscribe]
    dsimp only
    rw [repository_bootstrapWith]
    exact htree
  · rw [hsubscribe, Repository.foldl_unsubscribe]
    exact htree

/-- The tree changes by transactions only. -/
theorem tree_undergo (e : Engine) (event : Event) :
    (∃ orders edits, event = .move (.transact orders edits) ∧
      (e.undergo event).repository.tree = (e.repository.tree.transact edits).tree) ∨
    (e.undergo event).repository.tree = e.repository.tree := by
  cases event with
  | move m =>
    cases m with
    | transact orders edits => exact Or.inl ⟨orders, edits, rfl, rfl⟩
    | activate gate => exact Or.inr (tree_activate _)
    | deactivate order => exact Or.inr (tree_deactivate e order)
    | advance i =>
      right
      show (e.advance i).repository.tree = e.repository.tree
      unfold advance
      split
      · rw [repository_put]
      · rfl
  | shutdown order => exact Or.inr (tree_deactivate e order)
  | failReads on => exact Or.inr rfl
  | refuse on => exact Or.inr rfl
  | grant quota => exact Or.inr rfl

def Event.IsPlain : Event → Prop
  | .move (.transact _ edits) => ∀ x ∈ edits, x.IsPlain
  | _ => True

instance : DecidablePred Event.IsPlain
  | .move (.transact _ edits) => inferInstanceAs (Decidable (∀ x ∈ edits, x.IsPlain))
  | .move (.activate _) | .move (.deactivate _) | .move (.advance _) | .shutdown _ | .failReads _
  | .refuse _ | .grant _ => isTrue trivial

theorem regular_after {events : List Event} (hevents : ∀ event ∈ events, event.IsPlain) :
    (after settings events).repository.tree.Regular := by
  apply List.foldlRecOn (motive := fun e => e.repository.tree.Regular) events undergo
  · intro p node h
    cases h
  · intro e h event hevent
    rcases tree_undergo e event with ⟨orders, edits, rfl, htree⟩ | htree
    · rw [htree]
      exact Tree.regular_transact h (hevents _ hevent)
    · rw [htree]
      exact h

/-! ## One transaction, many subscriptions -/

theorem Watching.exists_subscription {paths : List Path} {subscriptions : List Subscription}
    (h : Watching paths subscriptions) {p : Path} (hp : p ∈ paths) :
    ∃ s ∈ subscriptions, p.normalize? = some s.scope := by
  induction h with
  | nil => exact absurd hp List.not_mem_nil
  | @cons q s paths subscriptions hfirst _ ih =>
    rcases List.mem_cons.1 hp with rfl | hp
    · exact ⟨s, List.mem_cons_self, hfirst⟩
    · obtain ⟨s', hs', hnormal⟩ := ih hp
      exact ⟨s', List.mem_cons_of_mem s hs', hnormal⟩

/-- Empty parts are not told, and following them would do nothing. -/
theorem foldl_heard (orders : Nat → Arrangement (Path × Action)) (r : Repository)
    (queries : List String) (changes : List Change) {heard : Nat → Bool}
    {subscriptions : List Subscription}
    (h : ∀ s ∈ subscriptions, heard s.id = true) (c : Catalog) :
    (((subscriptions.map fun s =>
        (⟨s.id, Repository.Subscription.batch s changes⟩ : Delivery)).filter
        (·.batch ≠ [])).filter (heard ·.subscription)).foldl
      (fun c d => (c.follow (orders d.subscription) r queries d.batch).1) c =
      c.followParts orders r queries changes subscriptions := by
  induction subscriptions generalizing c with
  | nil => rfl
  | cons s subscriptions ih =>
    have hrest := ih fun x hx => h x (List.mem_cons_of_mem s hx)
    rw [List.map_cons, List.filter_cons]
    split
    · rw [List.filter_cons, if_pos (h s List.mem_cons_self), List.foldl_cons, hrest]
      rfl
    · next hempty =>
      have hnil : Repository.Subscription.batch s changes = [] := by simpa using hempty
      rw [hrest, Catalog.followParts, Catalog.followParts, List.foldl_cons, hnil,
        Catalog.follow_nil]

/-- An engine that is on follows the part of each subscription, one after the other. -/
theorem catalog_transact (ha : e.active = some a)
    (hown : a.subscriptions = e.repository.subscriptions.map (·.id))
    (orders : Nat → Arrangement (Path × Action)) (edits : List Edit) :
    (e.transact orders edits).1.catalog = e.catalog.followParts orders
      (e.repository.transact edits).1 e.settings.queries
      (e.repository.tree.transact edits).changes e.repository.subscriptions := by
  apply foldl_heard
  intro s hs
  have hid : s.id ∈ a.subscriptions := hown ▸ List.mem_map_of_mem hs
  simp [hears, ha, hid]

/-- Let an engine have any life in which the edits are plain, let it be active and show what the
repository declares. Now make plain edits at or below a watched path, which is to say its normal
form, with all nodes declaring mappings for their own paths before and after. Then the engine shows
again what the repository declares, and its board is told of each root what has changed there from
before to after and nothing else, whatever other paths are watched and in whatever order the actions of
a batch are carried out. -/
theorem transact_tells_once {events : List Event} (hevents : ∀ event ∈ events, event.IsPlain)
    (hactive : (after settings events).active.isSome = true)
    (hreads : (after settings events).repository.failing = false)
    (hexact : (after settings events).catalog.Exact (after settings events).repository)
    (hnone : (after settings events).repository.tree.NoneOnParent) {paths : List Path}
    (hpaths : settings.watched = .ok paths) {top scope : Path} (htop : top ∈ paths)
    (hscope : top.normalize? = some scope) {edits : List Edit} (hplain : ∀ x ∈ edits, x.IsPlain)
    (hbelow : ∀ x ∈ edits, x.path.isWithin scope = true)
    (orders : Nat → Arrangement (Path × Action))
    (hnone' : ((after settings events).transact orders edits).1.repository.tree.NoneOnParent) :
    let e := after settings events
    let e' := (e.transact orders edits).1
    e'.catalog.Exact e'.repository ∧
    ∃ calls, e'.catalog.board.calls = e.catalog.board.calls ++ calls ∧
      ∀ root, Board.noticesAt calls root =
        Board.turnover (e.catalog.lookup root) (e'.catalog.lookup root) := by
  intro e e'
  obtain ⟨a, ha⟩ := Option.isSome_iff_exists.1 hactive
  have horderly : e.Orderly settings := orderly_after settings events
  have hon := horderly.on a ha
  have hopen : e.catalog.Open := ⟨horderly.consistent, hon.isOpen⟩
  have hr : e.repository.Plain := ⟨hreads, regular_after hevents, hnone⟩
  have hr' : e'.repository.Plain := ⟨hreads, Tree.regular_transact hr.regular hplain, hnone'⟩
  have hline : e.catalog.InLine e.repository :=
    (Catalog.exact_iff_lookup hopen.consistent hr.regular hnone).1 hexact
  -- the watched path has a subscription that hears of all edits
  obtain ⟨s, hs, hscope'⟩ : ∃ s ∈ e.repository.subscriptions, s.scope = scope := by
    obtain ⟨paths', hpaths', hwatching⟩ := hon.watching
    rw [horderly.settings_eq, hpaths] at hpaths'
    obtain rfl := Except.ok.inj hpaths'
    obtain ⟨s, hs, hnormal⟩ := hwatching.exists_subscription htop
    exact ⟨s, hs, Option.some.inj (hnormal.symm.trans hscope)⟩
  have hall : Accounts e.repository.tree
      ⟨e'.repository.tree, (e.repository.tree.transact edits).changes⟩ :=
    Accounts.transact hplain e.repository.tree
  have hwhole := accounts_batch hplain (hscope' ▸ hbelow) e.repository.tree s.id
  have hcatalog : e'.catalog = e.catalog.followParts orders e'.repository e.settings.queries
      (e.repository.tree.transact edits).changes e.repository.subscriptions :=
    catalog_transact ha hon.own orders edits
  have htoward := Catalog.toward_followParts hr' hall hopen orders e.settings.queries
    e.repository.subscriptions
  have hline' := Catalog.inLine_followParts hr hr' hall hopen hline orders e.settings.queries
    hs hwhole
  rw [← hcatalog] at htoward hline'
  exact ⟨(Catalog.exact_iff_lookup htoward.consistent hr'.regular hnone').2 hline', htoward.told⟩

/-- Three paths within each other are watched, the innermost first. A node between them is removed
and two declarations below it are written again, of which one is what it was before. The board is
told of the other one, once. -/
theorem transact_tells_once_nested :
    let settings := Settings.enabledFor ["/content/a/b", "/content", "/content/a"]
    let events := [Event.move (.activate none), .move (.transact (fun _ => .asListed)
      [.declare (.ofString "/content/a/x") "/s" false false,
        .declare (.ofString "/content/a/b/y") "/t" false true])]
    let edits := [Edit.removeNode (.ofString "/content/a"),
      .declare (.ofString "/content/a/x") "/u" false false,
      .declare (.ofString "/content/a/b/y") "/t" false true]
    let e := after settings events
    let e' := (e.transact (fun _ => .asListed) edits).1
    e.catalog.size = 2 ∧ e'.catalog.Exact e'.repository ∧
      e'.catalog.board.calls = e.catalog.board.calls ++
        [.withdraw (.ofString "/content/a/x") 1, .publish (.ofString "/content/a/x") 2] := by
  intro settings events edits e e'
  obtain ⟨hexact, -⟩ := @transact_tells_once settings events (by decide) (by decide) (by decide)
    (by decide) (by decide) [.ofString "/content/a/b", .ofString "/content", .ofString "/content/a"]
    rfl (.ofString "/content") (.ofString "/content") (by decide) rfl edits (by decide) (by decide)
    (fun _ => .asListed) (by decide)
  exact ⟨by decide, hexact, by decide⟩

/-- What a text with a blank before its last separator stands for is watched without the blank, so
nothing is heard of what is edited there. -/
theorem transact_unnoticed :
    let settings := Settings.enabledFor ["/a /"]
    let top := Path.ofString "/a "
    let e := after settings [.move (.activate none)]
    let edits := [Edit.declare (.ofString "/a /x") "/s" false false]
    let e' := (e.transact (fun _ => .asListed) edits).1
    settings.watched.toOption = some [top] ∧ (∀ x ∈ edits, x.IsPlain ∧ x.path.isWithin top = true) ∧
      e.active.isSome = true ∧ e.repository.failing = false ∧
      (e.repository.declaring settings.queries).toOption = some [] ∧ e.catalog.Exact e.repository ∧
      e'.repository.tree.NoneOnParent ∧
      ¬ e'.catalog.Exact e'.repository := by
  decide

end Graft.Engine
