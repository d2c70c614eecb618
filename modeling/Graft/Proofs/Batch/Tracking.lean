import Graft.Proofs.Batch.Plan
import Graft.Proofs.Catalog.Declared
import Graft.Proofs.Catalog.History
import Graft.Proofs.Catalog.Lasting

/-!
# Batches keep a catalog in line

A batch that accounts for what has become of the repository brings every node in line of which it
tells, or which the pass at its end reads, and leaves the others as they are (`carryOut_attends`). This
is so node by node, in whatever order the actions are carried out. So a node is as much in line
afterwards as it was before: what was backed is backed and what was served is served
(`carryOut_keeps`).

A catalog that follows a repository from its first transaction on (`Follows`) is therefore sound, and
complete, for as long as it was so once (`follows_keeps_line`).
-/

namespace Graft

namespace Catalog

variable {c : Catalog} {r : Repository} {order : List (Path × Action)} {p : Path}

/-! ## Carrying out the actions -/

/-- What is active at `p` once an action has been carried out there. -/
def settled (r : Repository) (p : Path) (old : Option Mapping) : Option Action → Option Mapping
  | none => old
  | some .unregister => none
  | some .register => if r.tree.contains p then (r.declaration p).mapping.toOption else old

theorem has_eq (hr : r.failing = false) (p : Path) : r.has p = .ok (r.tree.contains p) := by
  simp only [Repository.has, Repository.guardRead, hr]
  rfl

/-- All actions are carried out, each at its own path only, where reads succeed if there is anything
to register. -/
theorem lookup_perform (h : c.Open) (hkeys : (order.map (·.1)).Nodup)
    (hown : ∀ p, (p, Action.register) ∈ order → r.failing = false ∧ (r.declaration p).OwnRoot)
    (out : Batch.Outcome) :
    let (c', result) := c.perform r order out
    c'.Open ∧ (∃ out', result = .ok out') ∧
      ∀ q, c'.lookup q = settled r q (c.lookup q) (order.lookup q) := by
  induction order generalizing c out with
  | nil => exact ⟨h, ⟨out, rfl⟩, fun _ => rfl⟩
  | cons x order ih =>
    obtain ⟨p, action⟩ := x
    rw [List.map_cons, List.nodup_cons] at hkeys
    have hown' : ∀ q, (q, Action.register) ∈ order →
        r.failing = false ∧ (r.declaration q).OwnRoot :=
      fun q hq => hown q (List.mem_cons_of_mem _ hq)
    -- `p` has no second action, so what the rest does there is nothing
    have hlast : order.lookup p = none := by
      rw [List.lookup_eq_none_iff]
      intro e he
      have hne : p ≠ e.1 := by
        rintro rfl
        exact hkeys.1 (List.mem_map.2 ⟨e, he, rfl⟩)
      simpa using hne
    have hstep : ∀ {c' : Catalog} {old : Option Mapping}, c'.lookup p = old →
        old = settled r p (c.lookup p) (some action) → (∀ q, q ≠ p → c'.lookup q = c.lookup q) →
        ∀ q, settled r q (c'.lookup q) (order.lookup q) =
          settled r q (c.lookup q) (((p, action) :: order).lookup q) := by
      intro c' old hp hold hother q
      rw [Table.lookup_cons_eq_ite]
      split
      · next hq =>
        subst hq
        rw [hlast, ← hold, ← hp]
        rfl
      · next hq => rw [hother q hq]
    cases action with
    | unregister =>
      obtain ⟨hopen, hok, hlook⟩ := ih (h.unregister p) hkeys.2 hown'
        { out with unregistered := out.unregistered + (c.unregister p).2.toNat }
      refine ⟨hopen, hok, fun q => (hlook q).trans (hstep rfl ?_ ?_ q)⟩
      · rw [h.lookup_unregister, if_pos rfl]
        rfl
      · exact fun q hq => by rw [h.lookup_unregister, if_neg hq]
    | register =>
      obtain ⟨hr, hp⟩ := hown p List.mem_cons_self
      simp only [perform, has_eq hr]
      cases hc : r.tree.contains p with
      | false =>
        obtain ⟨hopen, hok, hlook⟩ := ih h hkeys.2 hown' out
        refine ⟨hopen, hok, fun q => (hlook q).trans (hstep rfl ?_ (fun _ _ => rfl) q)⟩
        rw [settled, hc, if_neg (by simp)]
      | true =>
        obtain ⟨hopen, hok, hlook⟩ := ih (h.register (r.declaration p)) hkeys.2 hown'
          { out with registered := out.registered + 1 }
        refine ⟨hopen, hok, fun q => (hlook q).trans (hstep rfl ?_ ?_ q)⟩
        · rw [h.lookup_register hp, settled, hc, if_pos rfl]
          exact if_pos rfl
        · exact fun q hq => by rw [h.lookup_register hp]; exact if_neg hq

/-- The order in which the actions of a plan are carried out does not matter to a look-up. -/
theorem lookup_order {actions : Table Path Action} (horder : order.Perm actions.entries) (p : Path) :
    (order.map (·.1)).Nodup ∧ order.lookup p = actions.get? p := by
  have hkeys : (order.map (·.1)).Nodup := (horder.map _).nodup_iff.2 actions.keys_nodup
  refine ⟨hkeys, ?_⟩
  cases hp : actions.get? p with
  | some a => exact Table.lookup_of_mem hkeys (horder.mem_iff.2 (Table.get?_eq_some_iff.1 hp))
  | none =>
    rw [List.lookup_eq_none_iff]
    intro e he
    have hentry := Table.get?_eq_some_iff.2 (horder.mem_iff.1 he)
    have hne : p ≠ e.1 := by
      rintro rfl
      rw [hp] at hentry
      cases hentry
    simpa using hne

/-! ## One batch -/

section Batch

variable {r' : Repository} {batch : List Change}

/-- The batch tells of the node, or ends with a pass that reads it. -/
def Attends (c : Catalog) (r : Repository) (queries : List String) (batch : List Change) (p : Path) :
    Prop :=
  Change.lastAsk p batch ≠ none ∨
    (Plan.of c batch).needsPass = true ∧ p ∈ r.reread queries

instance (c : Catalog) (r : Repository) (queries : List String) (batch : List Change) :
    DecidablePred (c.Attends r queries batch) :=
  fun _ => inferInstanceAs (Decidable (_ ∨ _))

/-- The actions leave at a root of which the batch tells what the node there declares now. -/
theorem settled_of_told (h : c.Consistent) (hr' : r'.failing = false)
    (hacc : Accounts r.tree ⟨r'.tree, batch⟩) (htold : Change.lastAsk p batch ≠ none) :
    settled r' p (c.lookup p) ((Plan.of c batch).actions.get? p) =
      (r'.declaration p).mapping.toOption := by
  obtain ⟨action, hlast⟩ := Option.ne_none_iff_exists'.1 htold
  cases action with
  | register =>
    rw [Plan.get?_of_written hlast]
    exact if_pos (hacc.written hlast)
  | unregister =>
    have hgone : (r'.declaration p).mapping.toOption = none :=
      Repository.toOption_mapping_eq_none hr' (hacc.gone hlast)
    by_cases hactive : c.contains p = true
    · rw [Plan.get?_of_active h hactive, hlast, hgone]
      rfl
    · -- nothing is active here, so the plan can only ask for what was written before the removal
      have hfree : c.lookup p = none := by
        simpa [contains, Table.contains, lookup] using hactive
      cases haction : (Plan.of c batch).actions.get? p with
      | none => exact hfree.trans hgone.symm
      | some action =>
        obtain ⟨rfl, -⟩ := Plan.get?_of_free h hactive haction
        rw [settled, hfree, hgone]
        split
        · rfl
        · rfl

/-- A root of which the batch does not tell is left alone. -/
theorem settled_of_untold (hr : r.failing = false) (hr' : r'.failing = false)
    (hacc : Accounts r.tree ⟨r'.tree, batch⟩) (huntold : Change.lastAsk p batch = none) :
    settled r' p (c.lookup p) ((Plan.of c batch).actions.get? p) = c.lookup p ∧
      r'.declaration p = r.declaration p := by
  have hnone : (Plan.of c batch).actions.get? p = none := by
    rw [Plan.get?_of, List.findSome?_eq_none_iff]
    intro change hmem
    rw [Plan.heeds, Change.lastAsk_eq_none_iff.1 huntold change (List.mem_reverse.1 hmem)]
    rfl
  rw [hnone]
  exact ⟨rfl, Repository.declaration_congr hr hr' (hacc.kept huntold).1⟩

/-- What a batch attends to it brings in line, and nothing else is touched. -/
theorem carryOut_attends (h : c.Open) (hr : r.failing = false) (hr' : r'.failing = false)
    (hreg : r'.tree.Regular) (hnone : r'.tree.NoneOnParent)
    (hacc : Accounts r.tree ⟨r'.tree, batch⟩) (queries : List String)
    (horder : order.Perm (Plan.of c batch).actions.entries) (p : Path) :
    let c' := (c.carryOut r' queries (Plan.of c batch) order).1
    c'.Open ∧
      (c.Attends r' queries batch p → c'.lookup p = (r'.declaration p).mapping.toOption) ∧
      (¬ c.Attends r' queries batch p →
        c'.lookup p = c.lookup p ∧ r'.declaration p = r.declaration p) := by
  have hown : ∀ q, (q, Action.register) ∈ order →
      r'.failing = false ∧ (r'.declaration q).OwnRoot := by
    intro q hq
    have haction := Table.get?_eq_some_iff.2 (horder.mem_iff.1 hq)
    obtain ⟨change, hmem, hasks⟩ := Plan.asks_of_register h.consistent haction
    exact ⟨hr', Repository.ownRoot hnone (hacc.normal change hmem hasks)⟩
  obtain ⟨hkeys, hlast⟩ := lookup_order horder p
  obtain ⟨hopen, ⟨out, hok⟩, hlook⟩ := lookup_perform h hkeys hown .blank
  have hp := hlook p
  rw [hlast] at hp
  have htold : Change.lastAsk p batch ≠ none →
      (c.perform r' order .blank).1.lookup p = (r'.declaration p).mapping.toOption :=
    fun htold => hp.trans (settled_of_told h.consistent hr' hacc htold)
  have huntold : Change.lastAsk p batch = none →
      (c.perform r' order .blank).1.lookup p = c.lookup p ∧ r'.declaration p = r.declaration p := by
    intro huntold
    obtain ⟨hsame, hdeclared⟩ := settled_of_untold hr hr' hacc huntold
    exact ⟨hp.trans hsame, hdeclared⟩
  unfold carryOut
  split
  · next hfail => rw [hfail] at hok; cases hok
  next c₁ out₁ hdone =>
  rw [hdone] at hopen htold huntold
  have hreread : ∀ q ∈ r'.reread queries, (r'.declaration q).OwnRoot :=
    fun q hq => Repository.ownRoot hnone (Repository.isNormal_of_mem_reread hreg hq)
  split
  · next hpass =>
    refine ⟨(lasting_open (D := fun _ => True)).pass (fun _ _ => trivial) queries _ hopen, ?_, ?_⟩
    · intro hattends
      rw [lookup_pass hopen hreread]
      split
      · rfl
      · next hmiss => exact htold (hattends.resolve_right fun hread => hmiss hread.2)
    · intro hidle
      rw [Attends, not_or, not_not] at hidle
      obtain ⟨hsame, hdeclared⟩ := huntold hidle.1
      rw [lookup_pass hopen hreread, if_neg fun hread => hidle.2 ⟨hpass, hread⟩]
      exact ⟨hsame, hdeclared⟩
  · next hpass =>
    refine ⟨hopen, fun hattends => ?_, fun hidle => ?_⟩
    · exact htold (hattends.resolve_right fun hread => hpass hread.1)
    · rw [Attends, not_or, not_not] at hidle
      exact huntold hidle.1

theorem follow_nil (c : Catalog) (order : Arrangement (Path × Action)) (r : Repository)
    (queries : List String) : (c.follow order r queries []).1 = c := by
  have hnone : order.arrange (Plan.of c []).actions.entries = [] := order.arrange_nil
  rw [follow, hnone]
  rfl

/-- A batch keeps each node in line. -/
theorem carryOut_keeps (h : c.Open) (hr : r.failing = false) (hr' : r'.failing = false)
    (hreg : r'.tree.Regular) (hnone : r'.tree.NoneOnParent)
    (hacc : Accounts r.tree ⟨r'.tree, batch⟩) (queries : List String)
    (horder : order.Perm (Plan.of c batch).actions.entries) (p : Path) :
    let c' := (c.carryOut r' queries (Plan.of c batch) order).1
    c'.Open ∧ (c.Backed r p → c'.Backed r' p) ∧ (c.Serves r p → c'.Serves r' p) := by
  obtain ⟨hopen, hline, hsame⟩ := carryOut_attends h hr hr' hreg hnone hacc queries horder p
  by_cases hattends : c.Attends r' queries batch p
  · obtain ⟨hback, hserve⟩ := (lookup_eq_iff hr' hreg hnone).1 (hline hattends)
    exact ⟨hopen, fun _ => hback, fun _ => hserve⟩
  · obtain ⟨hlook, hdeclared⟩ := hsame hattends
    refine ⟨hopen, fun hback m hm => ?_, fun hserve m _ hm => ?_⟩
    · rw [hdeclared]
      exact hback m (hlook.symm.trans hm)
    · have hroot := (Repository.ownRoot hnone
        (Repository.isNormal_of_mapping hr' hreg hm)).root_of_mapping hm
      rw [hdeclared] at hm
      have hold := hserve m (Repository.contains_of_mapping hr hm) hm
      rw [hroot] at hold ⊢
      exact hlook.trans hold

end Batch

end Catalog

/-! ## Runs -/

/-- One transaction of plain edits, and the batch of its changes followed with some queries and in
some order of the actions. -/
structure Turn (edits : List Edit) (queries : List String) (r : Repository) (c : Catalog)
    (r' : Repository) (c' : Catalog) : Prop where
  plain : ∀ e ∈ edits, e.IsPlain
  transacted : r' = (r.transact edits).1
  noneOnParent : r'.tree.NoneOnParent
  followed : ∃ order : List (Path × Action),
    order.Perm (Plan.of c (r.tree.transact edits).changes).actions.entries ∧
    c' = (c.carryOut r' queries (Plan.of c (r.tree.transact edits).changes) order).1

/-- Turn after turn, a catalog is kept in step with a repository. -/
inductive Follows (r₀ : Repository) (c₀ : Catalog) : Repository → Catalog → Prop where
  | start : Follows r₀ c₀ r₀ c₀
  | turn {edits queries r c r' c'} : Follows r₀ c₀ r c → Turn edits queries r c r' c' →
    Follows r₀ c₀ r' c'

theorem turn_of_follow {edits : List Edit} (hedits : ∀ e ∈ edits, e.IsPlain) {r : Repository}
    (hnone : (r.transact edits).1.tree.NoneOnParent) (order : Arrangement (Path × Action))
    (queries : List String) (c : Catalog) :
    Turn edits queries r c (r.transact edits).1
      (c.follow order (r.transact edits).1 queries (r.tree.transact edits).changes).1 :=
  ⟨hedits, rfl, hnone, _, order.perm _, rfl⟩

/-- What a repository and a catalog keep to as long as only turns are taken. -/
structure InStep (r : Repository) (c : Catalog) : Prop where
  reads : r.failing = false
  regular : r.tree.Regular
  isOpen : c.Open

namespace InStep

variable {r r' : Repository} {c c' : Catalog}

theorem turn (h : InStep r c) {edits : List Edit} {queries : List String}
    (hturn : Turn edits queries r c r' c') :
    InStep r' c' ∧ ∀ p, (c.Backed r p → c'.Backed r' p) ∧ (c.Serves r p → c'.Serves r' p) := by
  obtain ⟨hplain, rfl, hnone, order, horder, rfl⟩ := hturn
  have hreg := Tree.regular_transact h.regular hplain
  have hreads : (r.transact edits).1.failing = false := h.reads
  have hkeeps := Catalog.carryOut_keeps h.isOpen h.reads hreads hreg hnone
    (Accounts.transact hplain r.tree) queries horder
  exact ⟨⟨h.reads, hreg, (hkeeps ⟨[]⟩).1⟩, fun p => (hkeeps p).2⟩

theorem follows (h : InStep r c) (hfollows : Follows r c r' c') :
    InStep r' c' ∧ ∀ p, (c.Backed r p → c'.Backed r' p) ∧ (c.Serves r p → c'.Serves r' p) := by
  induction hfollows with
  | start => exact ⟨h, fun _ => ⟨id, id⟩⟩
  | turn _ hturn ih =>
    obtain ⟨hstep, hline⟩ := ih
    obtain ⟨hstep', hline'⟩ := hstep.turn hturn
    exact ⟨hstep', fun p => ⟨(hline' p).1 ∘ (hline p).1, (hline' p).2 ∘ (hline p).2⟩⟩

end InStep

theorem inStep_empty {history : List Catalog.Op}
    (hopen : (Catalog.after history).isSealed = false) :
    InStep .empty (Catalog.after history) where
  reads := rfl
  regular := by intro p node h; cases h
  isOpen := ⟨Catalog.consistent_after history, hopen⟩

/-- Take an open catalog with any past, put it beside an empty repository and keep it in step. From
any moment on, if every active mapping is the one declared at its root then this stays so, and if
every declared mapping is active then this stays so as well. -/
theorem follows_keeps_line (history : List Catalog.Op)
    (hopen : (Catalog.after history).isSealed = false) {r r' : Repository} {c c' : Catalog}
    (hpast : Follows .empty (Catalog.after history) r c) (hfuture : Follows r c r' c') :
    (c.Sound r → c'.Sound r') ∧ (c.Complete r → c'.Complete r') := by
  obtain ⟨hstep, -⟩ := (inStep_empty hopen).follows hpast
  obtain ⟨-, hline⟩ := hstep.follows hfuture
  constructor
  · intro hsound root
    exact (hline root).1 (hsound root)
  · intro hcomplete p
    exact (hline p).2 (hcomplete p)

/-- The second transaction takes a declaring node away with the node above it and declares something
else in its place; the catalog has both mappings of the new state and no other. -/
theorem follows_keeps_line_redeclared :
    let ask := ["marker|superimpose"]
    let first := [Edit.declare (.ofString "/a/b") "/s" false true]
    let second := [Edit.removeNode (.ofString "/a"), .declare (.ofString "/a/b") "/t" false false,
      .setProperty (.ofString "/a/c") "sourcePath" (.text "/u")]
    let r₁ := (Repository.empty.transact first).1
    let c₁ := (Catalog.empty.follow .asListed r₁ ask (Repository.empty.tree.transact first).changes).1
    let r₂ := (r₁.transact second).1
    let c₂ := (c₁.follow .asListed r₂ ask (r₁.tree.transact second).changes).1
    c₁.size = 1 ∧ c₂.size = 2 ∧ c₂.Sound r₂ ∧ c₂.Complete r₂ := by
  intro ask first second r₁ c₁ r₂ c₂
  have hfirst : Turn first ask .empty .empty r₁ c₁ :=
    turn_of_follow (by decide) (by decide) _ ask .empty
  have hsecond : Turn second ask r₁ c₁ r₂ c₂ := turn_of_follow (by decide) (by decide) _ ask c₁
  have hsound : Catalog.empty.Sound .empty := fun _ _ h => nomatch h
  have hcomplete : Catalog.empty.Complete .empty := fun _ _ h => nomatch h
  obtain ⟨hkeeps, hserves⟩ := follows_keeps_line [] rfl .start
    ((Follows.start.turn hfirst).turn hsecond)
  exact ⟨by decide, by decide, hkeeps hsound, hserves hcomplete⟩

end Graft
