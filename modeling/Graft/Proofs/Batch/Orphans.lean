import Graft.Proofs.Batch.Order
import Graft.Proofs.Catalog.Lasting

/-!
# Mappings that nobody declares

A node may declare a mapping at its parent's path. A batch tells about the node and not about that
path, so a mapping can outlive its declaration: when the node is removed, or aims at another root, the
catalog is not told that the old root has lost its mapping (`orphan_of_removal`).

A transaction tends to a mapping if something is done about its root in the end (`Tends`), for
instance because the node that declares the mapping keeps aiming there (`KeepsAim`). As long as every
transaction tends to all that is active, all that is active is declared, and the first one that does
not leaves a mapping that nobody declares (`rounds_leave_no_orphan`).
-/

namespace Graft

namespace Catalog

variable {c : Catalog} {r : Repository} {q : Path} {order : List (Path × Action)}

/-- If a mapping is active at `q` then some node declares it. -/
structure Vouched (r : Repository) (q : Path) (c : Catalog) : Prop where
  isOpen : c.Open
  declared : ∀ m, c.lookup q = some m → r.Declares m

def Present (r : Repository) (d : Declaration) : Prop :=
  ∃ p, r.tree.contains p = true ∧ r.declaration p = d

theorem Vouched.of_register (h : c.Open) {d : Declaration} (hd : Present r d)
    (hq : d.target? = some q) : Vouched r q (c.register d).1 := by
  refine ⟨h.register d, ?_⟩
  intro m hm
  rw [h.lookup_register_target, if_pos hq] at hm
  obtain ⟨p, hp, rfl⟩ := hd
  exact ⟨p, hp, Declaration.toOption_mapping_eq_some_iff.1 hm⟩

theorem Vouched.of_unregister (h : c.Open) (r : Repository) (q : Path) :
    Vouched r q (c.unregister q).1 := by
  refine ⟨h.unregister q, ?_⟩
  intro m hm
  rw [h.lookup_unregister, if_pos rfl] at hm
  cases hm

theorem lasting_vouched (r : Repository) (q : Path) : Lasting (Present r) (Vouched r q) where
  register := by
    intro c d hd h
    by_cases hq : d.target? = some q
    · exact Vouched.of_register h.isOpen hd hq
    · refine ⟨h.isOpen.register d, ?_⟩
      intro m hm
      rw [h.isOpen.lookup_register_target, if_neg hq] at hm
      exact h.declared m hm
  unregister := by
    intro c root h
    refine ⟨h.isOpen.unregister root, ?_⟩
    intro m hm
    rw [h.isOpen.lookup_unregister] at hm
    split at hm
    · cases hm
    · exact h.declared m hm

/-- Whatever is done later, a root at which something was done is vouched for. -/
theorem vouched_perform (h : c.Open) (hr : r.failing = false) {x : Path × Action}
    (hx : x ∈ order) (haim : r.aim? x = some q) (out : Batch.Outcome) :
    Vouched r q (c.perform r order out).1 := by
  have hpresent : ∀ p, r.tree.contains p = true → Present r (r.declaration p) :=
    fun p hp => ⟨p, hp, rfl⟩
  induction order generalizing c out with
  | nil => exact absurd hx List.not_mem_nil
  | cons y order ih =>
    obtain ⟨p, action⟩ := y
    rcases List.mem_cons.1 hx with rfl | hrest
    · cases action with
      | unregister =>
        obtain rfl : p = q := Option.some.inj haim
        exact (lasting_vouched r p).perform hpresent order _ (Vouched.of_unregister h r p)
      | register =>
        obtain ⟨hp, htarget⟩ := Option.ite_none_right_eq_some.1 haim
        simp only [perform, has_eq hr, hp]
        exact (lasting_vouched r q).perform hpresent order _
          (Vouched.of_register h (hpresent p hp) htarget)
    · cases action with
      | unregister => exact ih (h.unregister p) hrest _
      | register =>
        simp only [perform, has_eq hr]
        cases hc : r.tree.contains p with
        | false => exact ih h hrest _
        | true => exact ih (h.register _) hrest _

/-- A pass vouches for each root that a node touches which it reads. -/
theorem vouched_pass (h : c.Open) (hr : r.failing = false) {queries : List String} {p : Path}
    (hp : p ∈ r.reread queries) (htarget : (r.declaration p).target? = some q) :
    Vouched r q (c.pass r queries fun _ => false).1 := by
  refine ⟨(lasting_open (D := fun _ => True)).pass (fun _ _ => trivial) queries _ h, fun m hm => ?_⟩
  rw [lookup_pass_last h] at hm
  cases hlast : r.lastAt? (r.reread queries) q with
  | none => exact absurd htarget (Repository.lastAt?_eq_none_iff.1 hlast p hp)
  | some p' =>
    rw [hlast] at hm
    have hdeclared := Declaration.toOption_mapping_eq_some_iff.1 hm
    exact ⟨p', Repository.contains_of_mapping hr hdeclared, hdeclared⟩

/-- An action aims at the root, or a node touches it that is read by the pass at the end. -/
def Touches (r : Repository) (queries : List String) (plan : Plan) (order : List (Path × Action))
    (q : Path) : Prop :=
  (∃ x ∈ order, r.aim? x = some q) ∨
    plan.needsPass = true ∧ ∃ p ∈ r.reread queries, (r.declaration p).target? = some q

/-- A batch vouches for the roots that it touches and leaves the others alone. -/
theorem carryOut_touches (h : c.Open) (hr : r.failing = false) (queries : List String) (plan : Plan)
    (order : List (Path × Action)) (q : Path) :
    let c' := (c.carryOut r queries plan order).1
    (Touches r queries plan order q → Vouched r q c') ∧
      (¬ Touches r queries plan order q → c'.lookup q = c.lookup q) := by
  have hpresent : ∀ p, r.tree.contains p = true → Present r (r.declaration p) :=
    fun p hp => ⟨p, hp, rfl⟩
  have hperformed := lasting_open.perform hpresent order .blank h
  rw [perform_eq hr] at hperformed
  constructor
  · rintro (⟨x, hx, haim⟩ | ⟨hpass, p, hp, htarget⟩)
    · exact (lasting_vouched r q).carryOut_of_perform hpresent queries plan
        (vouched_perform h hr hx haim .blank)
    · rw [carryOut, perform_eq hr]
      simp only [hpass, if_true]
      exact vouched_pass hperformed hr hp htarget
  · intro huntouched
    rw [Touches, not_or] at huntouched
    have hsame : (order.foldl (act r) (c, .blank)).1.lookup q = c.lookup q :=
      lookup_foldl_act (s := (c, .blank)) h.consistent fun x hx haim => huntouched.1 ⟨x, hx, haim⟩
    rw [carryOut, perform_eq hr]
    dsimp only
    split
    · next hpass =>
      have hnone : r.lastAt? (r.reread queries) q = none :=
        Repository.lastAt?_eq_none_iff.2 fun p hp htarget =>
          huntouched.2 ⟨hpass, p, hp, htarget⟩
      rw [lookup_pass_last hperformed, hnone]
      exact hsame
    · exact hsame

/-- All that is active after a batch is declared exactly if all is that was active before and that the
batch does not touch. -/
theorem carryOut_declares_iff (h : c.Open) (hr : r.failing = false) (queries : List String)
    (plan : Plan) (order : List (Path × Action)) :
    (∀ m ∈ (c.carryOut r queries plan order).1.mappings, r.Declares m) ↔
      ∀ m ∈ c.mappings, r.Declares m ∨ Touches r queries plan order m.root := by
  have hopen : (c.carryOut r queries plan order).1.Open :=
    (lasting_open (D := fun _ => True)).carryOut (fun _ _ => trivial) queries plan order h
  have htouches := carryOut_touches h hr queries plan order
  constructor
  · intro hall m hm
    by_cases htouched : Touches r queries plan order m.root
    · exact Or.inr htouched
    · have hsame := (htouches m.root).2 htouched
      rw [mem_mappings_iff h.consistent] at hm
      exact Or.inl (hall m ((mem_mappings_iff hopen.consistent).2 (hsame.trans hm)))
  · intro hall m hm
    rw [mem_mappings_iff hopen.consistent] at hm
    by_cases htouched : Touches r queries plan order m.root
    · exact ((htouches m.root).1 htouched).declared m hm
    · have hold := ((htouches m.root).2 htouched).symm.trans hm
      exact (hall m ((mem_mappings_iff h.consistent).2 hold)).resolve_right htouched

end Catalog

/-! ## Where a declaration aims -/

namespace Declaration

variable {d d' : Declaration} {m : Mapping} {q : Path}

theorem root?_of_isNormal (h : d.node.isNormal = true) :
    d.root? = if d.onParent then d.node.parent else some d.node := by
  rw [root?, Path.isNormal_iff.1 h, Option.getD_some]

theorem target?_of_root? (hroot : d.root? = some q) (hq : q.isNormal = true) :
    d.target? = some q := by
  unfold target?
  split
  · next m hm =>
    obtain ⟨root, hroot', hnormal⟩ := normalize?_of_mapping hm
    obtain rfl := Option.some.inj (hroot.symm.trans hroot')
    exact hnormal.symm.trans (Path.isNormal_iff.1 hq)
  · exact hroot

/-- A root that a node has a mapping at and aims at again is in normal form, although the parent of a
path in normal form need not be. -/
theorem isNormal_of_aims (hm : d.mapping = .ok m) (hp : d.node.isNormal = true)
    (haim : d'.root? = some m.root) (hnode : d'.node = d.node) : m.root.isNormal = true := by
  obtain ⟨root, hroot, hnormal⟩ := normalize?_of_mapping hm
  rw [root?_of_isNormal hp] at hroot
  rw [root?_of_isNormal (hnode ▸ hp), hnode] at haim
  have hself : some d.node = some m.root → m.root.isNormal = true := by
    intro heq
    rw [← Option.some.inj heq]
    exact hp
  cases hup' : d'.onParent with
  | false =>
    rw [hup'] at haim
    exact hself haim
  | true =>
    rw [hup', if_pos rfl] at haim
    cases hup : d.onParent with
    | false =>
      rw [hup] at hroot
      obtain rfl : d.node = root := Option.some.inj hroot
      rw [Path.isNormal_iff.1 hp] at hnormal
      exact hself hnormal
    | true =>
      rw [hup, if_pos rfl, haim] at hroot
      obtain rfl := Option.some.inj hroot
      exact Path.isNormal_iff.2 hnormal

end Declaration

/-! ## What a transaction tends to -/

/-- The transaction tends to every active mapping: it is still declared, or the last thing that is done
about its root is to remove it, or a node aims at its root that was written last or that the pass at the
end reads. -/
def Tends (r : Repository) (c : Catalog) (edits : List Edit) (queries : List String) : Prop :=
  let r' := (r.transact edits).1
  let changes := (r.tree.transact edits).changes
  ∀ m ∈ c.mappings, r'.Declares m ∨ Change.lastAsk m.root changes = some .unregister ∨
    (∃ e ∈ r'.tree.entries, Change.lastAsk e.1 changes = some .register ∧
      (r'.declaration e.1).target? = some m.root) ∨
    (Plan.of c changes).needsPass = true ∧
      ∃ p ∈ r'.reread queries, (r'.declaration p).target? = some m.root

instance (r : Repository) (c : Catalog) (edits : List Edit) (queries : List String) :
    Decidable (Tends r c edits queries) :=
  inferInstanceAs (Decidable (∀ m ∈ c.mappings, _))

section

variable {r r' : Repository} {c : Catalog} {edits : List Edit}

/-- The plan aims at an active root if the last change about the root removes it, or if a node aims at it
that was written last. -/
theorem exists_aim_iff (h : c.Consistent) (hr' : r'.failing = false) {changes : List Change}
    (hacc : Accounts r.tree ⟨r'.tree, changes⟩) {q : Path} (hq : c.contains q = true) :
    (∃ x ∈ (Plan.of c changes).actions.entries, r'.aim? x = some q) ↔
      Change.lastAsk q changes = some .unregister ∨
        ∃ e ∈ r'.tree.entries, Change.lastAsk e.1 changes = some .register ∧
          (r'.declaration e.1).target? = some q := by
  have hcount := Plan.get?_of_active h hq changes
  constructor
  · rintro ⟨⟨p, action⟩, hx, haim⟩
    have haction := Table.get?_eq_some_iff.2 hx
    cases action with
    | unregister =>
      obtain rfl : p = q := Option.some.inj haim
      exact Or.inl (hcount.symm.trans haction)
    | register =>
      right
      obtain ⟨hp, htarget⟩ := Option.ite_none_right_eq_some.1 haim
      obtain ⟨node, hnode⟩ := Option.isSome_iff_exists.1 hp
      refine ⟨(p, node), Table.get?_eq_some_iff.1 hnode, ?_, htarget⟩
      by_cases hactive : c.contains p = true
      · exact (Plan.get?_of_active h hactive changes).symm.trans haction
      · obtain ⟨change, hmem, hasks⟩ := Plan.asks_of_register h haction
        cases hlast : Change.lastAsk p changes with
        | none =>
          rw [Change.lastAsk_eq_none_iff.1 hlast change hmem] at hasks
          cases hasks
        | some action =>
          cases action with
          | register => rfl
          | unregister =>
            -- without fields the node aims at itself, where nothing is active
            have hself := Repository.target?_of_bare hr' (hacc.normal change hmem hasks)
              (hacc.gone hlast)
            obtain rfl : p = q := Option.some.inj (hself.symm.trans htarget)
            exact absurd hq hactive
  · rintro (hlast | ⟨⟨p, node⟩, he, hlast, htarget⟩)
    · exact ⟨(q, .unregister), Table.get?_eq_some_iff.1 (hcount.trans hlast), rfl⟩
    · exact ⟨(p, .register), Table.get?_eq_some_iff.1 (Plan.get?_of_written hlast),
        (if_pos (hacc.written hlast)).trans htarget⟩

/-- After a transaction of plain edits all that is active is declared exactly if the transaction tends
to every mapping that was active. -/
theorem InStep.declares_iff_tends (h : InStep r c) (hplain : ∀ e ∈ edits, e.IsPlain)
    (queries : List String) {order : List (Path × Action)}
    (horder : order.Perm (Plan.of c (r.tree.transact edits).changes).actions.entries) :
    (∀ m ∈ (c.carryOut (r.transact edits).1 queries (Plan.of c (r.tree.transact edits).changes)
      order).1.mappings, (r.transact edits).1.Declares m) ↔ Tends r c edits queries := by
  have hreads : (r.transact edits).1.failing = false := h.reads
  have hacc : Accounts r.tree ⟨(r.transact edits).1.tree, (r.tree.transact edits).changes⟩ :=
    Accounts.transact hplain r.tree
  refine (Catalog.carryOut_declares_iff h.isOpen hreads queries _ order).trans ?_
  refine forall₂_congr fun m hm => or_congr_right ?_
  have hactive : c.contains m.root = true :=
    Option.isSome_iff_exists.2 ⟨m, (Catalog.mem_mappings_iff h.isOpen.consistent).1 hm⟩
  rw [Catalog.Touches, ← or_assoc, ← exists_aim_iff h.isOpen.consistent hreads hacc hactive]
  simp only [horder.mem_iff]

/-- Every node that declares an active mapping declares it still, or aims at its root still, or the
last thing that the transaction does about the root is to remove it. -/
def KeepsAim (r : Repository) (c : Catalog) (edits : List Edit) : Prop :=
  ∀ e ∈ r.tree.entries, ∀ m ∈ (r.declaration e.1).mapping.toOption, c.lookup m.root = some m →
    let now := (r.transact edits).1.declaration e.1
    m ∈ now.mapping.toOption ∨ now.root? = some m.root ∨
      Change.lastAsk m.root (r.tree.transact edits).changes = some .unregister

theorem KeepsAim.tends (haim : KeepsAim r c edits) (h : InStep r c)
    (hplain : ∀ e ∈ edits, e.IsPlain) (hdeclared : ∀ m ∈ c.mappings, r.Declares m)
    (queries : List String) : Tends r c edits queries := by
  intro m hm
  let r' := (r.transact edits).1
  let changes := (r.tree.transact edits).changes
  have hreads : r'.failing = false := h.reads
  have hacc : Accounts r.tree ⟨r'.tree, changes⟩ := Accounts.transact hplain r.tree
  obtain ⟨p, hcontains, hp⟩ := hdeclared m hm
  have hnormal := Repository.isNormal_of_mapping h.reads h.regular hp
  obtain ⟨node, hnode⟩ := Option.isSome_iff_exists.1 hcontains
  have hactive := (Catalog.mem_mappings_iff h.isOpen.consistent).1 hm
  rcases haim (p, node) (Table.get?_eq_some_iff.1 hnode) m
    (Declaration.toOption_mapping_eq_some_iff.2 hp) hactive with hstill | hroot | hlast
  · have hnow : (r'.declaration p).mapping = .ok m :=
      Declaration.toOption_mapping_eq_some_iff.1 hstill
    exact Or.inl ⟨p, Repository.contains_of_mapping hreads hnow, hnow⟩
  · have haims : (r'.declaration p).root? = some m.root := hroot
    have hq := Declaration.isNormal_of_aims hp hnormal haims rfl
    have htarget := Declaration.target?_of_root? haims hq
    -- what has become of the node is told by the last change about it
    cases hlast : Change.lastAsk p changes with
    | none =>
      have hsame := Repository.declaration_congr h.reads hreads (hacc.kept hlast).1
      rw [← hsame] at hp
      exact Or.inl ⟨p, Repository.contains_of_mapping hreads hp, hp⟩
    | some action =>
      cases action with
      | register =>
        obtain ⟨node', hnode'⟩ := Option.isSome_iff_exists.1 (hacc.written hlast)
        exact Or.inr (Or.inr (Or.inl
          ⟨(p, node'), Table.get?_eq_some_iff.1 hnode', hlast, htarget⟩))
      | unregister =>
        -- without fields the node aims at itself, so it is the root that was removed
        have hself := Repository.target?_of_bare hreads hnormal (hacc.gone hlast)
        obtain rfl : p = m.root := Option.some.inj (hself.symm.trans htarget)
        exact Or.inr (Or.inl hlast)
  · exact Or.inr (Or.inl hlast)

end

/-! ## Runs -/

/-- One transaction of plain edits, which may declare mappings at their parents' paths, and which tends
to what is active. -/
structure Round (edits : List Edit) (queries : List String) (r : Repository) (c : Catalog)
    (r' : Repository) (c' : Catalog) : Prop where
  plain : ∀ e ∈ edits, e.IsPlain
  tends : Tends r c edits queries
  transacted : r' = (r.transact edits).1
  followed : ∃ order : List (Path × Action),
    order.Perm (Plan.of c (r.tree.transact edits).changes).actions.entries ∧
    c' = (c.carryOut r' queries (Plan.of c (r.tree.transact edits).changes) order).1

inductive Rounds (c₀ : Catalog) : Repository → Catalog → Prop where
  | start : Rounds c₀ .empty c₀
  | round {edits queries r c r' c'} : Rounds c₀ r c → Round edits queries r c r' c' →
    Rounds c₀ r' c'

section

variable {r r' : Repository} {c c' : Catalog} {edits : List Edit} {queries : List String}

theorem InStep.round (h : InStep r c) (hround : Round edits queries r c r' c') :
    InStep r' c' ∧ ∀ m ∈ c'.mappings, r'.Declares m := by
  obtain ⟨hplain, htends, rfl, order, horder, rfl⟩ := hround
  have hopen := (Catalog.lasting_open (D := fun _ => True)).carryOut
    (r := (r.transact edits).1) (fun _ _ => trivial) queries
    (Plan.of c (r.tree.transact edits).changes) order h.isOpen
  exact ⟨⟨h.reads, Tree.regular_transact h.regular hplain, hopen⟩,
    (h.declares_iff_tends hplain queries horder).2 htends⟩

/-- Put an open catalog without mappings beside an empty repository and keep it in step with
transactions of plain edits which tend to what is active. Then whatever is active is declared by some
node, and after one more transaction of plain edits, with any queries and in any order of the actions,
that is so exactly if this transaction tends to what is active as well, for which it is enough that
the nodes keep their aim. -/
theorem rounds_leave_no_orphan (history : List Catalog.Op)
    (hopen : (Catalog.after history).isSealed = false)
    (hempty : (Catalog.after history).mappings = [])
    (h : Rounds (Catalog.after history) r c) :
    (∀ m ∈ c.mappings, r.Declares m) ∧
    ∀ edits : List Edit, (∀ e ∈ edits, e.IsPlain) → ∀ queries : List String,
      (KeepsAim r c edits → Tends r c edits queries) ∧
      ∀ order : List (Path × Action),
        order.Perm (Plan.of c (r.tree.transact edits).changes).actions.entries →
        let r' := (r.transact edits).1
        let c' := (c.carryOut r' queries (Plan.of c (r.tree.transact edits).changes) order).1
        (∀ m ∈ c'.mappings, r'.Declares m) ↔ Tends r c edits queries := by
  have hall : InStep r c ∧ ∀ m ∈ c.mappings, r.Declares m := by
    induction h with
    | start =>
      refine ⟨inStep_empty hopen, ?_⟩
      rw [hempty]
      intro m hm
      exact absurd hm List.not_mem_nil
    | round _ hround ih => exact ih.1.round hround
  obtain ⟨hstep, hdeclared⟩ := hall
  refine ⟨hdeclared, fun edits hplain queries => ⟨?_, fun order horder => ?_⟩⟩
  · exact fun haim => haim.tends hstep hplain hdeclared queries
  · exact hstep.declares_iff_tends hplain queries horder

end

theorem round_of_follow {edits : List Edit} (hedits : ∀ e ∈ edits, e.IsPlain) {r : Repository}
    {c : Catalog} {queries : List String} (htends : Tends r c edits queries)
    (order : Arrangement (Path × Action)) :
    Round edits queries r c (r.transact edits).1
      (c.follow order (r.transact edits).1 queries (r.tree.transact edits).changes).1 :=
  ⟨hedits, htends, rfl, _, order.perm _, rfl⟩

/-- A node declares a mapping at its parent's path, then another one there; then the parent is
removed, and another node declares a mapping at its own path. -/
theorem rounds_leave_no_orphan_parent :
    let ask := ["marker|superimpose"]
    let first := [Edit.declare (.ofString "/b/def") "/a" true false]
    let second := [Edit.setProperty (.ofString "/b/def") "sourcePath" (.text "/c")]
    let third := [Edit.removeNode (.ofString "/b"), .declare (.ofString "/d") "/e" false true]
    let r₁ := (Repository.empty.transact first).1
    let c₁ := (Catalog.empty.follow .asListed r₁ ask (Repository.empty.tree.transact first).changes).1
    let r₂ := (r₁.transact second).1
    let c₂ := (c₁.follow .asListed r₂ ask (r₁.tree.transact second).changes).1
    let r₃ := (r₂.transact third).1
    let c₃ := (c₂.follow .asListed r₃ ask (r₂.tree.transact third).changes).1
    c₂.contains (.ofString "/b") = true ∧ (∀ m ∈ c₂.mappings, r₂.Declares m) ∧
      c₃.contains (.ofString "/d") = true ∧ ∀ m ∈ c₃.mappings, r₃.Declares m := by
  intro ask first second third r₁ c₁ r₂ c₂ r₃ c₃
  have hfirst : Round first ask .empty .empty r₁ c₁ := round_of_follow (by decide) (by decide) _
  have hsecond : Round second ask r₁ c₁ r₂ c₂ := round_of_follow (by decide) (by decide) _
  have htwo := (Rounds.start.round hfirst).round hsecond
  obtain ⟨hdeclared, hnext⟩ := rounds_leave_no_orphan [] rfl rfl htwo
  have htends : Tends r₂ c₂ third ask := by decide
  exact ⟨by decide, hdeclared, by decide,
    ((hnext third (by decide) ask).2 _ (Arrangement.asListed.perm _)).2 htends⟩

/-- When a node is removed that has declared a mapping at its parent's path, the mapping stays,
although nobody declares it any more. -/
theorem orphan_of_removal :
    let ask := ["marker|superimpose /content"]
    let first := [Edit.declare (.ofString "/content/b/def") "/content/a" true false]
    let second := [Edit.removeNode (.ofString "/content/b/def")]
    let r₁ := (Repository.empty.transact first).1
    let c₁ := (Catalog.empty.follow .asListed r₁ ask (Repository.empty.tree.transact first).changes).1
    let r₂ := (r₁.transact second).1
    let c₂ := (c₁.follow .asListed r₂ ask (r₁.tree.transact second).changes).1
    c₂.mappings.map (·.root) = [.ofString "/content/b"] ∧ ∀ m ∈ c₂.mappings, ¬ r₂.Declares m := by
  decide

end Graft
