import Graft.Proofs.Tree.Accounts
import Graft.Proofs.Catalog.Views
import Mathlib.Data.List.Induction

/-!
# What a plan asks for

A plan has one action for each path, the last one that a change of the batch asks for there
(`get?_of`). Removals are noted only at roots that are active before the batch. So at an active root
the plan says what the last change says, and elsewhere it can only ask for a registration, which an
earlier change may have asked for as well.
-/

namespace Graft.Plan

variable {c : Catalog} {p : Path}

/-- What a change asks for at `p`, where removals count at the given roots only. -/
def heeds (roots : List Path) (p : Path) (change : Change) : Option Action :=
  (change.asks p).filter fun a => a = .register ∨ p ∈ roots

theorem get?_note (roots : List Path) (plan : Plan) (change : Change) (p : Path) :
    (note roots plan change).actions.get? p = (heeds roots p change).or (plan.actions.get? p) := by
  obtain ⟨kind, path⟩ := change
  cases kind with
  | nodeAdded => rfl
  | nodeRemoved =>
    simp only [note, heeds, Change.asks, Table.get?_foldl_insert, List.mem_filter]
    by_cases hwithin : p.isWithin path = true
    · by_cases hroot : p ∈ roots
      · simp [hwithin, hroot, Option.filter_some]
      · simp [hwithin, hroot, Option.filter_some]
    · simp [hwithin]
  | propertyAdded | propertyChanged | propertyRemoved =>
    cases hfield : Field.ofName? path.name with
    | none => simp [note, heeds, Change.asks, hfield]
    | some f =>
      cases hparent : path.parent with
      | none => simp [note, heeds, Change.asks, hfield, hparent]
      | some node =>
        simp only [note, heeds, Change.asks, hfield, hparent, Table.get?_insert]
        split
        · simp [Option.filter_some]
        · rfl

/-- The action at a path is the last one that a change of the batch asks for. -/
theorem get?_of (c : Catalog) (batch : List Change) (p : Path) :
    (of c batch).actions.get? p = batch.reverse.findSome? (heeds (c.mappings.map (·.root)) p) := by
  rw [of]
  induction batch using List.reverseRecOn with
  | nil => rfl
  | append_singleton batch change ih =>
    rw [List.foldl_append, List.foldl_cons, List.foldl_nil, get?_note, ih, List.reverse_append,
      List.reverse_singleton, List.singleton_append, List.findSome?_cons]
    cases heeds (c.mappings.map (·.root)) p change with
    | none => rfl
    | some a => rfl

theorem added_of (c : Catalog) (batch : List Change) :
    (of c batch).added = batch.any (·.kind = .nodeAdded) := by
  rw [of]
  induction batch using List.reverseRecOn with
  | nil => rfl
  | append_singleton batch change ih =>
    obtain ⟨kind, path⟩ := change
    rw [List.foldl_append, List.foldl_cons, List.foldl_nil, List.any_append, ← ih]
    cases kind with
    | nodeAdded => simp [note]
    | nodeRemoved => simp [note]
    | propertyAdded | propertyChanged | propertyRemoved =>
      simp only [note]
      split
      · simp
      · simp

/-- The batch removes a node at or above an active root. -/
theorem removed_of (c : Catalog) (batch : List Change) : (of c batch).removed = true ↔
    ∃ change ∈ batch, change.kind = .nodeRemoved ∧
      ∃ root ∈ c.mappings.map (·.root), root.isWithin change.path = true := by
  rw [of]
  induction batch using List.reverseRecOn with
  | nil => simp [empty]
  | append_singleton batch change ih =>
    obtain ⟨kind, path⟩ := change
    rw [List.foldl_append, List.foldl_cons, List.foldl_nil]
    simp only [List.mem_append, List.mem_singleton, or_and_right, exists_or, exists_eq_left, ← ih]
    cases kind with
    | nodeAdded => simp [note]
    | nodeRemoved => simp [note, List.filter_eq_nil_iff, -List.mem_map]
    | propertyAdded | propertyChanged | propertyRemoved =>
      simp only [note]
      split
      · simp
      · simp

theorem mem_roots_iff (h : c.Consistent) : p ∈ c.mappings.map (·.root) ↔ c.contains p = true := by
  rw [Catalog.contains, Table.contains, Option.isSome_iff_exists, List.mem_map]
  constructor
  · rintro ⟨m, hm, rfl⟩
    obtain ⟨root, hroot⟩ := Table.mem_values_iff.1 hm
    rw [h.visible_root_eq hroot]
    exact ⟨m, hroot⟩
  · rintro ⟨m, hm⟩
    exact ⟨m, Table.mem_values_iff.2 ⟨p, hm⟩, h.visible_root_eq hm⟩

/-- At an active root every change counts. -/
theorem get?_of_active (h : c.Consistent) (hp : c.contains p = true) (batch : List Change) :
    (of c batch).actions.get? p = Change.lastAsk p batch := by
  have hroot := (mem_roots_iff h).2 hp
  rw [get?_of, Change.lastAsk]
  congr 1
  funext change
  rw [heeds]
  cases change.asks p with
  | none => rfl
  | some a => simp [hroot]

/-- Elsewhere there can only be a registration, and some change asks for it. -/
theorem get?_of_free (h : c.Consistent) (hp : c.contains p ≠ true) {batch : List Change}
    {a : Action} (ha : (of c batch).actions.get? p = some a) :
    a = .register ∧ ∃ change ∈ batch, change.asks p = some .register := by
  have hroot : p ∉ c.mappings.map (·.root) := fun hmem => hp ((mem_roots_iff h).1 hmem)
  rw [get?_of] at ha
  obtain ⟨change, hmem, hheeds⟩ := List.exists_of_findSome?_eq_some ha
  obtain ⟨hasks, hallowed⟩ := Option.filter_eq_some_iff.1 hheeds
  obtain rfl : a = .register := by simpa [hroot] using hallowed
  exact ⟨rfl, change, List.mem_reverse.1 hmem, hasks⟩

/-- Whoever is registered was written at some time in the batch. -/
theorem asks_of_register (h : c.Consistent) {batch : List Change}
    (ha : (of c batch).actions.get? p = some .register) :
    ∃ change ∈ batch, change.asks p = some .register := by
  by_cases hp : c.contains p = true
  · rw [get?_of_active h hp] at ha
    exact Change.exists_of_lastAsk ha
  · exact (get?_of_free h hp ha).2

/-- Whoever was written last is registered, whatever is active. -/
theorem get?_of_written {batch : List Change} (h : Change.lastAsk p batch = some .register) :
    (of c batch).actions.get? p = some .register := by
  obtain ⟨later, change, earlier, hsplit, hasks, hlater⟩ := List.findSome?_eq_some_iff.1 h
  rw [get?_of, List.findSome?_eq_some_iff]
  refine ⟨later, change, earlier, hsplit, ?_, ?_⟩
  · simp [heeds, hasks]
  · intro change' hmem
    rw [heeds, hlater change' hmem]
    rfl

end Graft.Plan
