import Graft.Proofs.Batch.Plan
import Graft.Proofs.Catalog.History

/-!
# The last word about a path

A change concerns a path if it calls for an action there (`Concerns`): a write to a field concerns
the node that has the field, and a removal concerns every active root within the removed path. Of
all changes in a batch that concern a path the last one decides what is done there, and where none
does nothing is done (`last_word_decides`). So it matters neither how often a node is written nor
what else the batch tells.
-/

namespace Graft.Plan

variable {c : Catalog} {k : Path} {change : Change} {a : Action} {batch : List Change}

/-- The change calls for an action at `k` while the mappings of `c` are active. -/
inductive Concerns (c : Catalog) (k : Path) (change : Change) : Action → Prop where
  /-- A field of the node at `k` is written. -/
  | write (hkind : change.kind.isProperty = true)
    (hfield : (Field.ofName? change.path.name).isSome = true)
    (hnode : change.path.parent = some k) : Concerns c k change .register
  /-- A mapping is active at `k`, and `k` is removed or something above it. -/
  | removal (hkind : change.kind = .nodeRemoved) (hactive : ∃ m ∈ c.mappings, m.root = k)
    (hwithin : k.isWithin change.path = true) : Concerns c k change .unregister

def Silent (c : Catalog) (change : Change) : Prop := ∀ k a, ¬ Concerns c k change a

theorem heeds_eq_some_iff :
    heeds (c.mappings.map (·.root)) k change = some a ↔ Concerns c k change a := by
  rw [heeds, Option.filter_eq_some_iff, decide_eq_true_eq, List.mem_map]
  constructor
  · rintro ⟨hasks, hallowed⟩
    cases a with
    | register =>
      obtain ⟨hkind, hfield, hnode⟩ := Change.asks_eq_register_iff.1 hasks
      exact .write hkind hfield hnode
    | unregister =>
      obtain ⟨hkind, hwithin⟩ := Change.asks_eq_unregister_iff.1 hasks
      exact .removal hkind (hallowed.resolve_left (by decide)) hwithin
  · rintro (⟨hkind, hfield, hnode⟩ | ⟨hkind, hactive, hwithin⟩)
    · exact ⟨Change.asks_eq_register_iff.2 ⟨hkind, hfield, hnode⟩, Or.inl rfl⟩
    · exact ⟨Change.asks_eq_unregister_iff.2 ⟨hkind, hwithin⟩, Or.inr hactive⟩

instance (c : Catalog) (k : Path) (change : Change) (a : Action) :
    Decidable (Concerns c k change a) :=
  decidable_of_iff _ heeds_eq_some_iff

theorem heeds_eq_none_iff :
    heeds (c.mappings.map (·.root)) k change = none ↔ ∀ a, ¬ Concerns c k change a := by
  simp only [Option.eq_none_iff_forall_ne_some, ne_eq, heeds_eq_some_iff]

/-! ## Actions -/

/-- The last change that concerns a path decides. -/
theorem get?_of_eq_some_iff : (of c batch).actions.get? k = some a ↔
    ∃ before change after, batch = before ++ change :: after ∧ Concerns c k change a ∧
      ∀ later ∈ after, ∀ b, ¬ Concerns c k later b := by
  rw [get?_of, List.findSome?_eq_some_iff]
  constructor
  · rintro ⟨after, change, before, hsplit, hheeds, hafter⟩
    refine ⟨before.reverse, change, after.reverse, ?_, heeds_eq_some_iff.1 hheeds, ?_⟩
    · have hreverse := congrArg List.reverse hsplit
      simpa using hreverse
    · intro later hlater
      exact heeds_eq_none_iff.1 (hafter later (List.mem_reverse.1 hlater))
  · rintro ⟨before, change, after, rfl, hconcerns, hafter⟩
    refine ⟨after.reverse, change, before.reverse, by simp, heeds_eq_some_iff.2 hconcerns, ?_⟩
    intro later hlater
    exact heeds_eq_none_iff.2 (hafter later (List.mem_reverse.1 hlater))

theorem get?_of_eq_none_iff : (of c batch).actions.get? k = none ↔
    ∀ change ∈ batch, ∀ a, ¬ Concerns c k change a := by
  simp only [get?_of, List.findSome?_eq_none_iff, List.mem_reverse, heeds_eq_none_iff]

theorem get?_of_append (c : Catalog) (before after : List Change) (k : Path) :
    (of c (before ++ after)).actions.get? k =
      ((of c after).actions.get? k).or ((of c before).actions.get? k) := by
  rw [get?_of, List.reverse_append, List.findSome?_append, ← get?_of, ← get?_of]

theorem actions_of_silent (h : ∀ change ∈ batch, Silent c change) :
    (of c batch).actions = .empty := by
  refine Table.ext_get? fun k => ?_
  rw [Table.get?_empty, get?_of_eq_none_iff]
  exact fun change hchange => h change hchange k

/-- Changes that concern nothing can be put in and left out. -/
theorem actions_of_insert (before after : List Change) {extra : List Change}
    (h : ∀ change ∈ extra, Silent c change) :
    (of c (before ++ extra ++ after)).actions = (of c (before ++ after)).actions := by
  refine Table.ext_get? fun k => ?_
  rw [get?_of_append, get?_of_append, get?_of_append, actions_of_silent h, Table.get?_empty,
    Option.none_or]

/-- However many changes concern a path, there is one action for it. -/
theorem count_keys_of (h : ∃ change ∈ batch, ∃ a, Concerns c k change a) :
    (of c batch).actions.keys.count k = 1 := by
  apply List.count_eq_one_of_mem (of c batch).actions.keys_nodup
  rw [← Table.contains_iff_mem_keys, Table.contains, Option.isSome_iff_ne_none, ne_eq,
    get?_of_eq_none_iff]
  obtain ⟨change, hchange, a, hconcerns⟩ := h
  exact fun hnone => hnone change hchange a hconcerns

theorem Concerns.eq_of_write {q : Path} (h : Concerns c k change .register)
    (h' : Concerns c q change a) : q = k := by
  obtain ⟨hkind, -, hnode⟩ := h
  rcases h' with ⟨-, -, hnode'⟩ | ⟨hremoved, -, -⟩
  · exact Option.some.inj (hnode'.symm.trans hnode)
  · rw [hremoved] at hkind
    cases hkind

/-- Writes to one node, however many, ask to register the node and nothing else. -/
theorem entries_of_writes (hne : batch ≠ []) (h : ∀ change ∈ batch, Concerns c k change .register) :
    (of c batch).actions.entries = [(k, .register)] := by
  have hactions : (of c batch).actions = Table.empty.insert k .register := by
    refine Table.ext_get? fun q => ?_
    rw [Table.get?_insert]
    split
    · next hq =>
      rw [hq, get?_of_eq_some_iff]
      obtain ⟨before, last, rfl⟩ : ∃ before last, batch = before ++ [last] :=
        ⟨_, _, (List.dropLast_concat_getLast hne).symm⟩
      exact ⟨before, last, [], rfl, h last (by simp), fun later hlater => absurd hlater (by simp)⟩
    · next hq =>
      rw [Table.get?_empty, get?_of_eq_none_iff]
      exact fun change hchange a hconcerns => hq ((h change hchange).eq_of_write hconcerns)
  rw [hactions]
  rfl

/-! ## Batches that ask for nothing -/

theorem removed_of_iff : (of c batch).removed = true ↔
    ∃ change ∈ batch, change.kind = .nodeRemoved ∧
      ∃ m ∈ c.mappings, m.root.isWithin change.path = true := by
  rw [removed_of]
  simp only [List.mem_map, exists_exists_and_eq_and]

theorem follow_of_silent (h : ∀ change ∈ batch, Silent c change)
    (order : Arrangement (Path × Action)) (r : Repository) (queries : List String) :
    c.follow order r queries batch = (c, .ok .blank) := by
  have hpass : ¬ (of c batch).needsPass = true := by
    rw [needsPass, Bool.and_eq_true, removed_of_iff]
    rintro ⟨-, change, hchange, hkind, m, hm, hwithin⟩
    exact h change hchange m.root .unregister (.removal hkind ⟨m, hm, rfl⟩ hwithin)
  have hactions : (of c batch).actions.entries = [] := by
    rw [actions_of_silent h]
    rfl
  rw [Catalog.follow, hactions, Arrangement.arrange_nil]
  exact if_neg hpass

/-- What a plan notes of nodes added and removed is what the batch tells. At each path the last
change that concerns it decides, and where none does there is nothing to do. So a path has one
action however many changes concern it, and a change that concerns no path may be told or not. The
plan is all that comes of reading a batch: it is carried out on the catalog that was read, and a
batch that concerns no path leaves the catalog and its board alone. -/
theorem last_word_decides (c : Catalog) (batch : List Change) :
    ((of c batch).added = true ↔ ∃ change ∈ batch, change.kind = .nodeAdded) ∧
    ((of c batch).removed = true ↔ ∃ change ∈ batch, change.kind = .nodeRemoved ∧
      ∃ m ∈ c.mappings, m.root.isWithin change.path = true) ∧
    (∀ k a, (of c batch).actions.get? k = some a ↔
      ∃ before change after, batch = before ++ change :: after ∧ Concerns c k change a ∧
        ∀ later ∈ after, ∀ b, ¬ Concerns c k later b) ∧
    (∀ k, (of c batch).actions.get? k = none ↔ ∀ change ∈ batch, ∀ a, ¬ Concerns c k change a) ∧
    (∀ k, (∃ change ∈ batch, ∃ a, Concerns c k change a) →
      (of c batch).actions.keys.count k = 1) ∧
    (∀ k, batch ≠ [] → (∀ change ∈ batch, Concerns c k change .register) →
      (of c batch).actions.entries = [(k, .register)]) ∧
    (∀ before extra after, batch = before ++ extra ++ after →
      (∀ change ∈ extra, Silent c change) →
      (of c batch).actions = (of c (before ++ after)).actions) ∧
    ∀ order r queries,
      c.follow order r queries batch =
        c.carryOut r queries (of c batch) (order.arrange (of c batch).actions.entries) ∧
      ((∀ change ∈ batch, Silent c change) →
        c.follow order r queries batch = (c, .ok .blank)) := by
  refine ⟨?_, removed_of_iff, fun k a => get?_of_eq_some_iff, fun k => get?_of_eq_none_iff,
    fun k => count_keys_of, fun k => entries_of_writes, ?_, ?_⟩
  · rw [added_of, List.any_eq_true]
    simp only [decide_eq_true_eq]
  · rintro before extra after rfl hsilent
    exact actions_of_insert before after hsilent
  · intro order r queries
    exact ⟨rfl, fun hsilent => follow_of_silent hsilent order r queries⟩

/-- A node is written, removed with the node above it and written again. There are two actions: the
node is registered after all, and the other mapping below the removed path goes. -/
theorem last_word_decides_interleaved :
    let c := Catalog.after [.register ⟨.ofString "/a/b", some "/s", false, false⟩,
      .register ⟨.ofString "/a/c", some "/t", false, false⟩]
    let write : Change := .property (.ofString "/a/b") "sourcePath" .propertyChanged
    let batch := [write, write, .removed (.ofString "/a"), .added (.ofString "/a/b"), write]
    (of c batch).actions.get? (.ofString "/a/b") = some .register ∧
      (of c batch).actions.get? (.ofString "/a/c") = some .unregister ∧
      (of c batch).actions.keys.count (.ofString "/a/b") = 1 := by
  intro c write batch
  obtain ⟨-, -, hdecides, -, hone, -⟩ := last_word_decides c batch
  have hwrite : Concerns c (.ofString "/a/b") write .register := by decide
  have hafter : ∀ later ∈ [.added (.ofString "/a/b"), write], ∀ b ∈ [Action.register, .unregister],
      ¬ Concerns c (.ofString "/a/c") later b := by decide
  refine ⟨(hdecides _ _).2 ⟨batch.take 4, write, [], rfl, hwrite, nofun⟩,
    (hdecides _ _).2 ⟨[write, write], .removed (.ofString "/a"), _, rfl, by decide, ?_⟩,
    hone _ ⟨write, List.mem_cons_self, _, hwrite⟩⟩
  intro later hlater b
  exact hafter later hlater b (by cases b <;> decide)

end Graft.Plan
