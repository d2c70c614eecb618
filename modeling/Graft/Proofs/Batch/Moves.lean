import Graft.Proofs.Batch.Tracking
import Graft.Proofs.Catalog.Lasting
import Graft.Proofs.Engine.Bootstrap
import Graft.Proofs.Tree.Move

/-!
# How moves are followed

A move is told as one removal and some additions, whatever it carries along. The catalog withdraws
what is active within the removed path and has a pass read everything again, but it does so only if
there was something to withdraw, and the pass reads only what the queries find. A node that is moved
without being read again had better declare at its new place what is active there
(`move_exact_iff`). So a flawed declaration that a move puts right goes unnoticed, and so does a
declaration that is moved over (`move_unnoticed`).
-/

namespace Graft

/-! ## The plan -/

namespace Catalog

variable {c : Catalog} {r : Repository} {p goal q : Path} {created : List Path}

def hasWithin (c : Catalog) (p : Path) : Bool := c.mappings.any (·.root.isWithin p)

theorem asks_added (q : Path) {change : Change} (h : change ∈ created.map .added) :
    change.kind = .nodeAdded ∧ change.asks q = none := by
  obtain ⟨a, -, rfl⟩ := List.mem_map.1 h
  exact ⟨rfl, rfl⟩

theorem asks_ne_register (q : Path) {change : Change}
    (h : change ∈ .removed p :: created.map .added) : change.asks q ≠ some .register := by
  rcases List.mem_cons.1 h with rfl | h
  · rw [Change.asks_removed]
    split
    · nofun
    · nofun
  · rw [(asks_added q h).2]
    nofun

/-- There is a pass after a removal and some additions exactly if the removal hits something. -/
theorem needsPass_of_move (c : Catalog) (p : Path) (hcreated : created ≠ []) :
    (Plan.of c (.removed p :: created.map .added)).needsPass = c.hasWithin p := by
  have hadded : (Plan.of c (.removed p :: created.map .added)).added = true := by
    obtain ⟨a, rest, rfl⟩ := List.exists_cons_of_ne_nil hcreated
    rw [Plan.added_of, List.any_eq_true]
    exact ⟨.added a, by simp, rfl⟩
  have hremoved : (Plan.of c (.removed p :: created.map .added)).removed = c.hasWithin p := by
    rw [Bool.eq_iff_iff, Plan.removed_of, hasWithin, List.any_eq_true]
    constructor
    · rintro ⟨change, hmem, hkind, root, hroot, hwithin⟩
      obtain ⟨m, hm, rfl⟩ := List.mem_map.1 hroot
      rcases List.mem_cons.1 hmem with rfl | hmem
      · exact ⟨m, hm, hwithin⟩
      · rw [(asks_added p hmem).1] at hkind
        cases hkind
    · rintro ⟨m, hm, hwithin⟩
      exact ⟨.removed p, List.mem_cons_self, rfl, m.root, List.mem_map_of_mem hm, hwithin⟩
  rw [Plan.needsPass, hadded, hremoved, Bool.true_and]

/-- The actions withdraw what is active within the removed path, and nothing else. -/
theorem settled_of_move (h : c.Consistent) (r : Repository) (p q : Path) (created : List Path) :
    settled r q (c.lookup q) ((Plan.of c (.removed p :: created.map .added)).actions.get? q) =
      if q.isWithin p then none else c.lookup q := by
  have hlast : Change.lastAsk q (.removed p :: created.map .added) =
      if q.isWithin p then some .unregister else none := by
    have hsilent : Change.lastAsk q (created.map .added) = none :=
      Change.lastAsk_eq_none_iff.2 fun change hmem => (asks_added q hmem).2
    rw [Change.lastAsk_cons, hsilent, Change.asks_removed]
    rfl
  by_cases hactive : c.contains q = true
  · rw [Plan.get?_of_active h hactive, hlast]
    split
    · rfl
    · rfl
  · have hfree : c.lookup q = none := by
      rw [lookup, ← Option.not_isSome_iff_eq_none]
      exact hactive
    cases haction : (Plan.of c (.removed p :: created.map .added)).actions.get? q with
    | none =>
      rw [settled, hfree, ite_self]
    | some action =>
      obtain ⟨-, change, hmem, hasks⟩ := Plan.get?_of_free h hactive haction
      exact absurd hasks (asks_ne_register q hmem)

theorem lookup_move (h : c.Open) {queries : List String}
    (hown : ∀ q ∈ r.reread queries, (r.declaration q).OwnRoot) (hcreated : created ≠ [])
    {order : List (Path × Action)}
    (horder : order.Perm (Plan.of c (.removed p :: created.map .added)).actions.entries) :
    let c' := (c.carryOut r queries (Plan.of c (.removed p :: created.map .added)) order).1
    c'.Open ∧ ∀ q, c'.lookup q =
      if c.hasWithin p = true ∧ q ∈ r.reread queries then (r.declaration q).mapping.toOption
      else if q.isWithin p then none else c.lookup q := by
  have hnone : ∀ q, (q, Action.register) ∉ order := by
    intro q hq
    have haction := Table.get?_eq_some_iff.2 (horder.mem_iff.1 hq)
    obtain ⟨change, hmem, hasks⟩ := Plan.asks_of_register h.consistent haction
    exact asks_ne_register q hmem hasks
  obtain ⟨hopen, ⟨out, hok⟩, hlook⟩ := lookup_perform h (lookup_order horder p).1
    (r := r) (fun q hq => absurd hq (hnone q)) .blank
  have hperformed : ∀ q, (c.perform r order .blank).1.lookup q =
      if q.isWithin p then none else c.lookup q := by
    intro q
    rw [hlook, (lookup_order horder q).2]
    exact settled_of_move h.consistent r p q created
  unfold carryOut
  split
  · next hfail => rw [hfail] at hok; cases hok
  · next c₁ out₁ hdone =>
    rw [hdone] at hopen hperformed
    rw [needsPass_of_move c p hcreated]
    split
    · next hhit =>
      refine ⟨(lasting_open (D := fun _ => True)).pass (fun _ _ => trivial) queries _ hopen, ?_⟩
      intro q
      rw [lookup_pass hopen hown, hperformed]
      simp only [hhit, true_and]
    · next hmiss =>
      refine ⟨hopen, fun q => ?_⟩
      have hno : ¬ (c.hasWithin p = true ∧ q ∈ r.reread queries) := fun hboth => hmiss hboth.1
      exact (hperformed q).trans (if_neg hno).symm

end Catalog

/-! ## The outcome -/

theorem Tree.Marked.move {t : Tree} {p goal watched : Path} (h : t.Marked watched)
    (hp : p.isNormal = true) (hgoal : goal.isNormal = true)
    (hwithin : goal.isWithin watched = true) : (t.move p goal).tree.Marked watched := by
  by_cases hstay : goal.isWithin p = true ∨ (t.subtree p).isEmpty = true
  · rw [Tree.move_of_stay hstay]
    exact h
  rw [not_or, Bool.not_eq_true, Bool.not_eq_true] at hstay
  apply Tree.All.move hstay.1 hstay.2 h
  · exact fun _ => Or.inl rfl
  · intro e he
    obtain ⟨hnode, hbelow⟩ := Tree.mem_subtree_iff.1 he
    refine (h e.1 e.2 (Table.get?_eq_some_iff.2 hnode)).imp_right ?_
    rintro ⟨⟨hnormal, -⟩, hmarked⟩
    exact ⟨⟨Tree.isNormal_moved hp hgoal hbelow hnormal,
      Path.isWithin_trans (Tree.moved_isWithin hbelow) hwithin⟩, hmarked⟩

section Outcome

variable {r : Repository} {Q p goal k : Path}

/-- Where no node is moved to, what was declared still is, but not within the path that is moved. -/
theorem toOption_mapping_of_unmoved (hgoal : goal.isWithin p = false)
    (hsome : (r.tree.subtree p).isEmpty = false)
    (hk : ∀ e ∈ r.tree.subtree p, Tree.moved p goal e.1 ≠ k) :
    let r' := { r with tree := (r.tree.move p goal).tree }
    (r'.declaration k).mapping.toOption =
      if k.isWithin p then none else (r.declaration k).mapping.toOption := by
  intro r'
  have hfield := Tree.field_move_of_unmoved hgoal hsome hk
  cases hr : r.failing with
  | true =>
    have hflawed : ∀ {r : Repository}, r.failing = true →
        (r.declaration k).mapping.toOption = none := by
      intro r hr
      refine Option.eq_none_iff_forall_ne_some.2 fun m hm => ?_
      have hreads := Repository.reads_of_mapping (Declaration.toOption_mapping_eq_some_iff.1 hm)
      rw [hr] at hreads
      cases hreads
    have hr' : r'.failing = true := hr
    rw [hflawed hr, hflawed hr', ite_self]
  | false =>
    have hr' : r'.failing = false := hr
    split
    · next hwithin =>
      refine Option.eq_none_iff_forall_ne_some.2 fun m hm => ?_
      rw [Declaration.toOption_mapping_eq_some_iff] at hm
      exact Repository.mapping_ne_ok hr' (fun f => (hfield f).trans (if_pos hwithin)) hm
    · next hout =>
      have hsame : ∀ f, r'.tree.field k f = r.tree.field k f :=
        fun f => (hfield f).trans (if_neg hout)
      rw [Repository.declaration_congr hr hr' hsame]

/-- The pass after a move finds the moved nodes that are tagged as declaring. -/
theorem mem_reread_moved_iff (hr : r.failing = false) (hQ : Q.IsWord)
    (hgoal : goal.isWithin p = false) (hgQ : goal.isWithin Q = true) {e : Path × Node}
    (he : e ∈ r.tree.subtree p) :
    Tree.moved p goal e.1 ∈ ({ r with tree := (r.tree.move p goal).tree } : Repository).reread
        [Repository.declarationsQuery Q] ↔ Declaration.marker ∈ e.2.tags := by
  have hsome : (r.tree.subtree p).isEmpty = false := by
    rw [List.isEmpty_eq_false_iff]
    exact List.ne_nil_of_mem he
  have hr' : ({ r with tree := (r.tree.move p goal).tree } : Repository).failing = false := hr
  rw [Repository.reread, Repository.declaring_declarations hr' hQ, Repository.mem_declarations_iff]
  have hnode := Tree.get?_move_moved hgoal hsome he
  have hwithin : (Tree.moved p goal e.1).isWithin Q = true :=
    Path.isWithin_trans (Tree.moved_isWithin (Tree.mem_subtree_iff.1 he).2) hgQ
  constructor
  · rintro ⟨node, hfound, htag, -⟩
    obtain rfl := Option.some.inj (hnode.symm.trans hfound)
    exact htag
  · exact fun htag => ⟨e.2, hnode, htag, hwithin⟩

/-- Where nothing is moved the catalog is left alone. -/
theorem carryOut_move_of_stay {c : Catalog}
    (hstay : goal.isWithin p = true ∨ (r.tree.subtree p).isEmpty = true)
    {order : List (Path × Action)}
    (horder : order.Perm (Plan.of c (r.tree.move p goal).changes).actions.entries)
    (queries : List String) :
    let r' := { r with tree := (r.tree.move p goal).tree }
    r' = r ∧ (c.carryOut r' queries (Plan.of c (r.tree.move p goal).changes) order).1 = c := by
  rw [Tree.move_of_stay hstay] at horder ⊢
  obtain rfl : order = [] := List.perm_nil.1 horder
  exact ⟨rfl, rfl⟩

theorem exact_carryOut_move_iff {c : Catalog} (h : c.Open) (hmarked : r.tree.Marked Q)
    (hexact : c.Exact r) (hp : p.isNormal = true) (hgoal : goal.isNormal = true)
    (hgQ : goal.isWithin Q = true) {order : List (Path × Action)}
    (horder : order.Perm (Plan.of c (r.tree.move p goal).changes).actions.entries)
    (queries : List String) :
    let r' := { r with tree := (r.tree.move p goal).tree }
    let c' := (c.carryOut r' queries (Plan.of c (r.tree.move p goal).changes) order).1
    c'.Exact r' ↔ goal.isWithin p = true ∨ ∀ e ∈ r.tree.subtree p,
      let k := Tree.moved p goal e.1
      c.hasWithin p = true ∧ k ∈ r'.reread queries ∨
        (r'.declaration k).mapping.toOption = if k.isWithin p then none else c.lookup k := by
  intro r' c'
  by_cases hstay : goal.isWithin p = true ∨ (r.tree.subtree p).isEmpty = true
  · obtain ⟨hr', hc'⟩ : r' = r ∧ c' = c := carryOut_move_of_stay hstay horder queries
    have hexact' : c'.Exact r' := by
      rw [hr', hc']
      exact hexact
    refine ⟨fun _ => hstay.imp_right fun hempty e he => ?_, fun _ => hexact'⟩
    rw [List.isEmpty_iff.1 hempty] at he
    exact absurd he List.not_mem_nil
  rw [not_or, Bool.not_eq_true, Bool.not_eq_true] at hstay
  obtain ⟨hout, hsome⟩ := hstay
  have hmarked' : r'.tree.Marked Q := hmarked.move hp hgoal hgQ
  obtain ⟨created, hchanges⟩ := Tree.move_changes hout hsome
  rw [hchanges] at horder
  obtain ⟨hopen, hlook⟩ : c'.Open ∧ ∀ q, c'.lookup q =
      if c.hasWithin p = true ∧ q ∈ r'.reread queries then (r'.declaration q).mapping.toOption
      else if q.isWithin p then none else c.lookup q := by
    subst c'
    rw [hchanges]
    apply Catalog.lookup_move h _ (by simp) horder
    intro q hq
    exact Repository.ownRoot hmarked'.noneOnParent
      (Repository.isNormal_of_mem_reread hmarked'.regular hq)
  rw [Catalog.exact_iff_lookup hopen.consistent hmarked'.regular hmarked'.noneOnParent, hout]
  simp only [Bool.false_eq_true, false_or]
  rw [Catalog.exact_iff_lookup h.consistent hmarked.regular hmarked.noneOnParent] at hexact
  constructor
  · intro hline e _
    have hmoved := hline (Tree.moved p goal e.1)
    rw [hlook] at hmoved
    split at hmoved
    · next hread => exact Or.inl hread
    · exact Or.inr hmoved.symm
  · intro hmoved q
    rw [hlook]
    split
    · rfl
    · next hunread =>
      by_cases hq : ∃ e ∈ r.tree.subtree p, Tree.moved p goal e.1 = q
      · obtain ⟨e, he, rfl⟩ := hq
        exact ((hmoved e he).resolve_left hunread).symm
      · have hunmoved : ∀ e ∈ r.tree.subtree p, Tree.moved p goal e.1 ≠ q :=
          fun e he heq => hq ⟨e, he, heq⟩
        rw [toOption_mapping_of_unmoved hout hsome hunmoved, hexact]

/-- Take an open catalog with any past that shows exactly what a repository declares, with sources
only beside the marker, at or below `Q`. Move something to a place at or below `Q`, and have the
catalog follow with the query for `Q`, in any order of the actions.

Then the catalog shows exactly what is declared now if and only if nothing was moved, or each moved
node was read again or declares at its new place what is active there once the old place has been
withdrawn. If anything active was withdrawn then the moved nodes with the marker are read again. -/
theorem move_exact_iff (history : List Catalog.Op)
    (hopen : (Catalog.after history).isSealed = false) (hmarked : r.tree.Marked Q)
    (hexact : (Catalog.after history).Exact r) {origin target : Path}
    (hp : p.isNormal = true) (horigin : origin.normalize? = some p)
    (hgoal : goal.isNormal = true) (htarget : target.normalize? = some goal)
    (hgQ : goal.isWithin Q = true) {order : List (Path × Action)}
    (horder : order.Perm (Plan.of (Catalog.after history)
      (r.tree.transact [.moveNode origin target]).changes).actions.entries) :
    let ask := [Repository.declarationsQuery Q]
    let c := Catalog.after history
    let r' := (r.transact [.moveNode origin target]).1
    let c' := (c.carryOut r' ask
      (Plan.of c (r.tree.transact [.moveNode origin target]).changes) order).1
    (c'.Exact r' ↔ goal.isWithin p = true ∨ ∀ e ∈ r.tree.subtree p,
      let k := Tree.moved p goal e.1
      c.hasWithin p = true ∧ k ∈ r'.reread ask ∨
        (r'.declaration k).mapping.toOption = if k.isWithin p then none else c.lookup k) ∧
      (r.failing = false → Q.IsWord → goal.isWithin p = false → ∀ e ∈ r.tree.subtree p,
        (Tree.moved p goal e.1 ∈ r'.reread ask ↔ Declaration.marker ∈ e.2.tags)) := by
  intro ask c r' c'
  have h : c.Open := ⟨Catalog.consistent_after history, hopen⟩
  have hmove := Tree.transact_move horigin htarget r.tree
  have hr' : r' = { r with tree := (r.tree.move p goal).tree } :=
    congrArg (fun revision : Revision => { r with tree := revision.tree }) hmove
  have hc' : c' = (c.carryOut r' ask (Plan.of c (r.tree.move p goal).changes) order).1 :=
    congrArg (fun revision => (c.carryOut r' ask (Plan.of c revision.changes) order).1) hmove
  rw [hmove] at horder
  rw [hc', hr']
  constructor
  · exact exact_carryOut_move_iff h hmarked hexact hp hgoal hgQ horder ask
  · exact fun hreads hQ hout e he => mem_reread_moved_iff hreads hQ hout hgQ he

end Outcome

/-- A declaring node is moved along with the node above it, and what it declares at its new place is
active. -/
theorem move_exact_iff_carried :
    let ask := [Repository.declarationsQuery (.ofString "/content")]
    let first := [Edit.declare (.ofString "/content/a/d") "/x" false true]
    let second := [Edit.moveNode (.ofString "/content//a") (.ofString "/content/c/")]
    let r₁ := (Repository.empty.transact first).1
    let c₁ := Catalog.after [.register (r₁.declaration (.ofString "/content/a/d"))]
    let r₂ := (r₁.transact second).1
    let c₂ := (c₁.follow .asListed r₂ ask (r₁.tree.transact second).changes).1
    c₁.contains (.ofString "/content/a/d") = true ∧
      c₂.contains (.ofString "/content/c/d") = true ∧ c₂.Exact r₂ ∧
      ∀ e ∈ r₁.tree.subtree (.ofString "/content/a"),
        (Tree.moved (.ofString "/content/a") (.ofString "/content/c") e.1 ∈ r₂.reread ask ↔
          Declaration.marker ∈ e.2.tags) := by
  intro ask first second r₁ c₁ r₂ c₂
  have hempty : Tree.Marked (.ofString "/content") Table.empty := fun _ _ h => nomatch h
  have hmarked : r₁.tree.Marked (.ofString "/content") := hempty.transact (by decide)
  have hword : (Path.ofString "/content").IsWord := ⟨by decide, by decide⟩
  have horigin : (Path.ofString "/content//a").normalize? = some (.ofString "/content/a") := by
    decide
  have htarget : (Path.ofString "/content/c/").normalize? = some (.ofString "/content/c") := by
    decide
  obtain ⟨hexact, hread⟩ := move_exact_iff
    [.register (r₁.declaration (.ofString "/content/a/d"))] rfl hmarked (by decide)
    (by decide) horigin (by decide) htarget (by decide) .rfl
  exact ⟨by decide, by decide, hexact.2 (Or.inr (by decide)), hread rfl hword (by decide)⟩

/-- A declaration that is flawed because its source lies below its own path is put right by a move,
but nothing gets active. A plain node is moved over a declaring one, but what that one declared
stays active. -/
theorem move_unnoticed :
    let content := Path.ofString "/content"
    let ask := [Repository.declarationsQuery content]
    let flawed := (Repository.empty.transact
      [.declare (.ofString "/content/a") "/content/a/x" false false]).1
    let repair := [Edit.moveNode (.ofString "/content/a") (.ofString "/content/b")]
    let declaring := (Repository.empty.transact
      [.declare (.ofString "/content/b") "/content/a" false false,
        .addNode (.ofString "/content/c")]).1
    let active := Catalog.after [.register (declaring.declaration (.ofString "/content/b"))]
    let overwrite := [Edit.moveNode (.ofString "/content/c") (.ofString "/content/b")]
    (flawed.tree.Marked content ∧ Catalog.empty.Exact flawed ∧
      ¬ (Catalog.empty.follow .asListed (flawed.transact repair).1 ask
        (flawed.tree.transact repair).changes).1.Exact (flawed.transact repair).1) ∧
    (declaring.tree.Marked content ∧ active.Exact declaring ∧
      ¬ (active.follow .asListed (declaring.transact overwrite).1 ask
        (declaring.tree.transact overwrite).changes).1.Exact (declaring.transact overwrite).1) := by
  intro content ask flawed repair declaring active overwrite
  have hempty : Tree.Marked content Table.empty := fun _ _ h => nomatch h
  exact ⟨⟨hempty.transact (by decide), by decide, by decide⟩,
    ⟨hempty.transact (by decide), by decide, by decide⟩⟩

end Graft
