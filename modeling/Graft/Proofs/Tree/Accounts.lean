import Graft.Batch
import Graft.Proofs.Tree.Edits

/-!
# What the changes of a transaction tell

A transaction may write, remove and create again the same node any number of times, but the last
change that asks for something about a node tells how the node stands in the end (`Accounts`): if it
is a write then the node is there, if it is a removal then the node has no field, and if there is
none then its fields are what they were. Edits account for what they do one by one, and accounts add
up (`Accounts.andThen`), so transactions of plain edits account for what they do
(`Accounts.transact`).
-/

namespace Graft

theorem Field.ofName?_name (f : Field) : Field.ofName? f.name = some f := by cases f <;> decide

/-! ## The last change that asks for something -/

namespace Change

/-- What a change asks to do about the node at `p`. -/
def asks (p : Path) (change : Change) : Option Action :=
  match change.kind with
  | .nodeAdded => none
  | .nodeRemoved => if p.isWithin change.path then some .unregister else none
  | .propertyAdded | .propertyChanged | .propertyRemoved =>
    match Field.ofName? change.path.name, change.path.parent with
    | some _, some node => if p = node then some .register else none
    | _, _ => none

/-- What the last change that asks for something about the node at `p` asks for. -/
def lastAsk (p : Path) (changes : List Change) : Option Action := changes.reverse.findSome? (asks p)

variable {p q : Path} {name : String} {kind : Kind}

/-- A write to a field asks to register the node that has the field, and nothing else does. -/
theorem asks_eq_register_iff {change : Change} : change.asks p = some .register ↔
    change.kind.isProperty = true ∧ (Field.ofName? change.path.name).isSome = true ∧
      change.path.parent = some p := by
  obtain ⟨kind, path⟩ := change
  cases kind with
  | nodeAdded => simp [asks, Kind.isProperty]
  | nodeRemoved => simp [asks, Kind.isProperty]
  | propertyAdded | propertyChanged | propertyRemoved =>
    cases hfield : Field.ofName? path.name with
    | none => simp [asks, hfield]
    | some f =>
      cases hparent : path.parent with
      | none => simp [asks, hfield, hparent]
      | some node => simp [asks, Kind.isProperty, hfield, hparent, eq_comm]

/-- A removal asks to unregister what lies within the removed path, and nothing else does. -/
theorem asks_eq_unregister_iff {change : Change} : change.asks p = some .unregister ↔
    change.kind = .nodeRemoved ∧ p.isWithin change.path = true := by
  obtain ⟨kind, path⟩ := change
  cases kind with
  | nodeAdded => simp [asks]
  | nodeRemoved => simp [asks]
  | propertyAdded | propertyChanged | propertyRemoved =>
    simp only [asks, reduceCtorEq, false_and, iff_false]
    split
    · split
      · exact nofun
      · exact nofun
    · exact nofun

@[simp] theorem asks_removed (p q : Path) :
    asks p (removed q) = if p.isWithin q then some .unregister else none := rfl

/-- A change of a property is about the node that has the property. -/
theorem asks_property (hq : q.isNormal = true) (hname : '/' ∉ name.toList)
    (hkind : kind.isProperty = true) :
    asks p (property q name kind) =
      if p = q ∧ (Field.ofName? name).isSome then some .register else none := by
  have hparent := Path.parent_child (Path.chars_ne_nil_of_isNormal hq) hname
  have hlast : (q.child name).name = name := Path.name_child hname
  have hasks : asks p (property q name kind) =
      match Field.ofName? name with
      | some _ => if p = q then some .register else none
      | none => none := by
    cases kind with
    | nodeAdded => cases hkind
    | nodeRemoved => cases hkind
    | propertyAdded => simp only [asks, property, hparent, hlast]; cases Field.ofName? name <;> rfl
    | propertyChanged => simp only [asks, property, hparent, hlast]; cases Field.ofName? name <;> rfl
    | propertyRemoved => simp only [asks, property, hparent, hlast]; cases Field.ofName? name <;> rfl
  rw [hasks]
  cases Field.ofName? name with
  | none => simp
  | some f => simp

@[simp] theorem lastAsk_singleton (p : Path) (change : Change) :
    lastAsk p [change] = asks p change := by
  simp [lastAsk]

theorem lastAsk_append (p : Path) (before after : List Change) :
    lastAsk p (before ++ after) = (lastAsk p after).or (lastAsk p before) := by
  rw [lastAsk, List.reverse_append, List.findSome?_append]
  rfl

theorem lastAsk_cons (p : Path) (change : Change) (changes : List Change) :
    lastAsk p (change :: changes) = (lastAsk p changes).or (asks p change) := by
  rw [← List.singleton_append, lastAsk_append, lastAsk_singleton]

theorem lastAsk_eq_none_iff {changes : List Change} :
    lastAsk p changes = none ↔ ∀ change ∈ changes, asks p change = none := by
  simp [lastAsk]

theorem exists_of_lastAsk {changes : List Change} {a : Action} (h : lastAsk p changes = some a) :
    ∃ change ∈ changes, asks p change = some a := by
  obtain ⟨change, hmem, hasks⟩ := List.exists_of_findSome?_eq_some h
  exact ⟨change, List.mem_reverse.1 hmem, hasks⟩

end Change

/-! ## Accounts -/

/-- The changes of a revision of `t` tell what has become of each node. -/
structure Accounts (t : Tree) (r : Revision) : Prop where
  kept : ∀ {p}, Change.lastAsk p r.changes = none → (∀ f, r.tree.field p f = t.field p f) ∧
    (t.contains p = true → r.tree.contains p = true)
  gone : ∀ {p}, Change.lastAsk p r.changes = some .unregister → ∀ f, r.tree.field p f = none
  written : ∀ {p}, Change.lastAsk p r.changes = some .register → r.tree.contains p = true
  normal : ∀ {p}, ∀ change ∈ r.changes, change.asks p = some .register → p.isNormal = true

namespace Accounts

variable {t : Tree} {r : Revision}

/-- A later step overrides what an earlier one says about a node, unless it is silent about it. -/
theorem andThen {next : Tree → Revision} (h : Accounts t r) (hnext : Accounts r.tree (next r.tree)) :
    Accounts t (r.andThen next) where
  kept := by
    intro p hp
    rw [Revision.andThen, Change.lastAsk_append, Option.or_eq_none_iff] at hp
    obtain ⟨hfields, hstay⟩ := h.kept hp.2
    obtain ⟨hfields', hstay'⟩ := hnext.kept hp.1
    exact ⟨fun f => (hfields' f).trans (hfields f), fun hc => hstay' (hstay hc)⟩
  gone := by
    intro p hp f
    rw [Revision.andThen, Change.lastAsk_append, Option.or_eq_some_iff] at hp
    rcases hp with hp | ⟨hsilent, hp⟩
    · exact hnext.gone hp f
    · exact ((hnext.kept hsilent).1 f).trans (h.gone hp f)
  written := by
    intro p hp
    rw [Revision.andThen, Change.lastAsk_append, Option.or_eq_some_iff] at hp
    rcases hp with hp | ⟨hsilent, hp⟩
    · exact hnext.written hp
    · exact (hnext.kept hsilent).2 (h.written hp)
  normal := by
    intro p change hmem hasks
    rcases List.mem_append.1 hmem with hmem | hmem
    · exact h.normal change hmem hasks
    · exact hnext.normal change hmem hasks

/-- Changes that ask for nothing account for a step that keeps all fields and all nodes. -/
theorem of_silent (hsilent : ∀ p, ∀ change ∈ r.changes, change.asks p = none)
    (hfield : ∀ p f, r.tree.field p f = t.field p f)
    (hstay : ∀ p, t.contains p = true → r.tree.contains p = true) : Accounts t r where
  kept {p} _ := ⟨hfield p, hstay p⟩
  gone {p} hp := by
    rw [Change.lastAsk_eq_none_iff.2 (hsilent p)] at hp
    cases hp
  written {p} hp := by
    rw [Change.lastAsk_eq_none_iff.2 (hsilent p)] at hp
    cases hp
  normal {p} change hmem hasks := by
    rw [hsilent p change hmem] at hasks
    cases hasks

theorem unchanged (t : Tree) : Accounts t t.unchanged :=
  of_silent (by simp [Tree.unchanged]) (fun _ _ => rfl) fun _ h => h

/-- The same tree with fewer changes is accounted for if the changes left out ask for nothing. -/
theorem of_lastAsk_eq {changes : List Change} (h : Accounts t r) (hsub : changes ⊆ r.changes)
    (hsame : ∀ p, Change.lastAsk p changes = Change.lastAsk p r.changes) :
    Accounts t ⟨r.tree, changes⟩ where
  kept {p} hp := h.kept ((hsame p).symm.trans hp)
  gone {p} hp := h.gone ((hsame p).symm.trans hp)
  written {p} hp := h.written ((hsame p).symm.trans hp)
  normal change hmem := h.normal change (hsub hmem)

/-! ## Steps account for what they do -/

/-- A change of one property accounts for a new node at `p` that differs in that property only. -/
theorem insert {p : Path} {name : String} {kind : Change.Kind} {node node' : Node}
    (hp : p.isNormal = true) (hname : '/' ∉ name.toList) (hkind : kind.isProperty = true)
    (hnode : t.get? p = some node) (hfield : ∀ f, f.name ≠ name → node'.field f = node.field f) :
    Accounts t ⟨t.insert p node', [.property p name kind]⟩ where
  kept := by
    intro q hq
    rw [Change.lastAsk_singleton, Change.asks_property hp hname hkind] at hq
    simp only [Tree.field, Table.contains, Table.get?_insert]
    split
    · next heq =>
      subst heq
      refine ⟨fun f => ?_, fun _ => rfl⟩
      rw [hnode]
      refine hfield f fun hf => ?_
      -- a change of a field asks for something
      rw [← hf, Field.ofName?_name] at hq
      simp at hq
    · exact ⟨fun _ => rfl, fun h => h⟩
  gone := by
    intro q hq
    rw [Change.lastAsk_singleton, Change.asks_property hp hname hkind] at hq
    split at hq
    · cases hq
    · cases hq
  written := by
    intro q hq
    rw [Change.lastAsk_singleton, Change.asks_property hp hname hkind] at hq
    split at hq
    · next heq => rw [heq.1, Table.contains, Table.get?_insert_self]; rfl
    · cases hq
  normal := by
    intro q change hmem hasks
    rw [List.mem_singleton.1 hmem, Change.asks_property hp hname hkind] at hasks
    split at hasks
    · next heq => rw [heq.1]; exact hp
    · cases hasks

theorem create (t : Tree) (p : Path) : Accounts t (t.create p) := by
  refine of_silent ?_ ?_ ?_
  · intro q change hmem
    obtain ⟨q', -, rfl⟩ := List.mem_map.1 hmem
    rfl
  · intro q f
    rw [Tree.field, Tree.get?_create]
    split
    · next hq => rw [Tree.field, Tree.get?_eq_none_of_mem_missing hq]; rfl
    · rfl
  · intro q hq
    rw [Table.contains, Tree.get?_create]
    split
    · rfl
    · exact hq

theorem putProperty {p : Path} {name : String} (hp : p.isNormal = true)
    (hname : '/' ∉ name.toList) (t : Tree) (value : Value) :
    Accounts t (t.putProperty p name value) := by
  refine (create t p).andThen ?_
  have hnode := Tree.get?_create_self t p
  dsimp only
  rw [hnode]
  refine insert hp hname ?_ hnode fun f hf => ?_
  · split
    · rfl
    · rfl
  · exact (Node.field_put _ name value f).trans (if_neg hf)

theorem dropProperty {p : Path} {name : String} (hp : p.isNormal = true)
    (hname : '/' ∉ name.toList) (t : Tree) : Accounts t (t.dropProperty p name) := by
  unfold Tree.dropProperty
  split
  · exact unchanged t
  next node hnode =>
  split
  · exact insert hp hname rfl hnode fun f hf => (Node.field_dropped node name f).trans (if_neg hf)
  · exact unchanged t

theorem putTag (t : Tree) (p : Path) (tag : String) : Accounts t (t.putTag p tag) := by
  refine (create t p).andThen (of_silent (by simp) ?_ ?_)
  · intro q f
    simp only [Tree.field, Table.get?_insert]
    split
    · next hq => rw [hq, Tree.get?_create_self]; rfl
    · rfl
  · intro q hq
    simp only [Table.contains, Table.get?_insert] at hq ⊢
    split
    · rfl
    · exact hq

theorem drop (t : Tree) (p : Path) : Accounts t (t.drop p) := by
  have hlook := Tree.get?_drop t p
  unfold Tree.drop at hlook ⊢
  split
  · exact unchanged t
  next hsome =>
  rw [if_neg hsome] at hlook
  refine ⟨?_, ?_, ?_, ?_⟩
  · intro q hq
    rw [Change.lastAsk_singleton, Change.asks_removed] at hq
    split at hq
    · cases hq
    next hout =>
    simp only [Tree.field, Table.contains, hlook, if_neg hout]
    exact ⟨fun _ => trivial, id⟩
  · intro q hq f
    rw [Change.lastAsk_singleton, Change.asks_removed] at hq
    split at hq
    · next hin => rw [Tree.field, hlook, if_pos hin]; rfl
    · cases hq
  · intro q hq
    rw [Change.lastAsk_singleton, Change.asks_removed] at hq
    split at hq
    · cases hq
    · cases hq
  · intro q change hmem hasks
    rw [List.mem_singleton.1 hmem, Change.asks_removed] at hasks
    split at hasks
    · cases hasks
    · cases hasks

theorem step {s : Tree.Step} (hs : s.IsPlain) (t : Tree) : Accounts t (t.step s) := by
  cases s with
  | create p => exact create t p
  | tag p tag => exact putTag t p tag
  | put p name value => exact putProperty hs.1 hs.2 t value
  | unset p name => exact dropProperty hs.1 hs.2 t
  | drop p => exact drop t p

/-- A transaction of plain edits accounts for what it does. -/
theorem transact {edits : List Edit} (hedits : ∀ e ∈ edits, e.IsPlain) (t : Tree) :
    Accounts t (t.transact edits) := by
  have hsteps := Edit.steps_plain_of_mem hedits
  rw [Tree.transact_eq_run hedits]
  generalize edits.flatMap Edit.steps = steps at hsteps
  induction steps generalizing t with
  | nil => exact unchanged t
  | cons s steps ih =>
    have hs := step (hsteps s List.mem_cons_self) t
    exact hs.andThen (ih _ fun s hs => hsteps s (List.mem_cons_of_mem _ hs))

end Accounts

end Graft
