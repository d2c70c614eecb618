import Graft.Proofs.Tree.Edits
import Mathlib.Data.List.Basic

/-!
# Transactions that take nothing away

Edits other than removals and moves leave every node in place. What they add they tell, node by
node, and nothing is added but at the paths that they name and above these
(`Revision.grows_transact`).
-/

namespace Graft

def Edit.removes : Edit → Bool
  | .removeNode _ | .moveNode _ _ => true
  | .addNode _ | .declare _ _ _ _ | .setProperty _ _ _ | .removeProperty _ _ | .addTag _ _ => false

def Tree.Step.removes : Tree.Step → Bool
  | .drop _ => true
  | .create _ | .tag _ _ | .put _ _ _ | .unset _ _ => false

/-- The edit adds what is missing at its path and above it. -/
def Edit.Reaches (e : Edit) (p : Path) : Prop :=
  ∃ e', e.normalize? = some e' ∧ p ∈ e'.path.ancestors

theorem Edit.removes_of_mem_steps {e : Edit} (he : e.removes = false) {s : Tree.Step}
    (hs : s ∈ e.steps) : s.removes = false := by
  cases e with
  | declare p source onParent overlayable =>
    rcases mem_steps_declare hs with rfl | rfl | ⟨f, value, rfl⟩
    · rfl
    · rfl
    · rfl
  | addNode p => rw [List.mem_singleton.1 hs]; rfl
  | setProperty p name value => rw [List.mem_singleton.1 hs]; rfl
  | removeProperty p name => rw [List.mem_singleton.1 hs]; rfl
  | addTag p tag => rw [List.mem_singleton.1 hs]; rfl
  | removeNode p | moveNode p goal => cases he

theorem Edit.removes_normalize? {e e' : Edit} (h : e.normalize? = some e') :
    e'.removes = e.removes ∧ (e'.moves = true → e'.removes = true) := by
  cases e with
  | moveNode p goal =>
    obtain ⟨q, -, hmove⟩ := Option.bind_eq_some_iff.1 h
    obtain ⟨goal', -, rfl⟩ := Option.map_eq_some_iff.1 hmove
    exact ⟨rfl, fun _ => rfl⟩
  | addNode p | declare p | removeNode p | addTag p | setProperty p | removeProperty p =>
    obtain ⟨q, -, rfl⟩ := Option.map_eq_some_iff.1 h
    exact ⟨rfl, fun hmoves => by cases hmoves⟩

namespace Revision

/-- The revision leaves the nodes of `t` in place and tells of each one that it adds, all of them
within reach. -/
structure Grows (reach : Path → Prop) (t : Tree) (r : Revision) : Prop where
  contains_iff : ∀ q, r.tree.contains q = true ↔ t.contains q = true ∨ .added q ∈ r.changes
  within : ∀ q, .added q ∈ r.changes → reach q

variable {reach : Path → Prop} {t : Tree} {p : Path}

theorem grows_unchanged (reach : Path → Prop) (t : Tree) : Grows reach t t.unchanged where
  contains_iff _ := (or_iff_left List.not_mem_nil).symm
  within _ h := absurd h List.not_mem_nil

theorem Grows.andThen {r : Revision} {next : Tree → Revision} (h : Grows reach t r)
    (hnext : Grows reach r.tree (next r.tree)) : Grows reach t (r.andThen next) where
  contains_iff q := by
    show (next r.tree).tree.contains q = true ↔ _ ∨ _ ∈ r.changes ++ (next r.tree).changes
    rw [hnext.contains_iff, h.contains_iff, List.mem_append, or_assoc]
  within q hq := (List.mem_append.1 hq).elim (h.within q) (hnext.within q)

/-- Writing over a node adds none. -/
theorem grows_insert {changes : List Change} (hp : t.contains p = true)
    (hchanges : ∀ q, .added q ∉ changes) (node : Node) :
    Grows reach t ⟨t.insert p node, changes⟩ where
  contains_iff q := by
    rw [Table.contains_insert, or_iff_left (hchanges q), or_iff_right_iff_imp]
    rintro rfl
    exact hp
  within q hq := absurd hq (hchanges q)

theorem added_mem_create_iff {q : Path} : .added q ∈ (t.create p).changes ↔ q ∈ t.missing p := by
  show .added q ∈ (t.missing p).reverse.map Change.added ↔ _
  have hinj : Function.Injective Change.added := fun _ _ h => congrArg Change.path h
  rw [List.mem_map_of_injective hinj, List.mem_reverse]

theorem grows_create (hreach : ∀ q ∈ p.ancestors, reach q) (t : Tree) :
    Grows reach t (t.create p) where
  contains_iff q := by
    rw [added_mem_create_iff, Table.contains, Tree.get?_create, Table.contains]
    by_cases hq : q ∈ t.missing p <;> simp [hq]
  within q hq := hreach q ((List.takeWhile_sublist _).mem (added_mem_create_iff.1 hq))

theorem not_mem_property (node : Path) (name : String) {kind : Change.Kind}
    (hkind : kind ≠ .nodeAdded) (q : Path) : .added q ∉ [Change.property node name kind] := by
  intro h
  exact hkind (congrArg Change.kind (List.mem_singleton.1 h)).symm

theorem grows_step {s : Tree.Step} (hkeeps : s.removes = false)
    (hreach : ∀ q ∈ s.path.ancestors, reach q) (t : Tree) : Grows reach t (t.step s) := by
  cases s with
  | create p => exact grows_create hreach t
  | tag p tag =>
    rw [Tree.step, Tree.putTag_eq]
    exact (grows_create hreach t).andThen
      (grows_insert (t.contains_create_self p) (fun _ => List.not_mem_nil) _)
  | put p name value =>
    rw [Tree.step, Tree.putProperty_eq]
    refine (grows_create hreach t).andThen
      (grows_insert (t.contains_create_self p) (not_mem_property p name ?_) _)
    split <;> decide
  | unset p name =>
    rw [Tree.step, Tree.dropProperty]
    split
    · exact grows_unchanged reach t
    · next node hnode =>
      split
      · have hp : t.contains p = true := Option.isSome_of_mem hnode
        exact grows_insert hp (not_mem_property p name (by decide)) _
      · exact grows_unchanged reach t
  | drop p => cases hkeeps

theorem grows_run {steps : List Tree.Step}
    (hsteps : ∀ s ∈ steps, s.removes = false ∧ ∀ q ∈ s.path.ancestors, reach q) (t : Tree) :
    Grows reach t (t.run steps) := by
  induction steps generalizing t with
  | nil => exact grows_unchanged reach t
  | cons s steps ih =>
    obtain ⟨⟨hkeeps, hreach⟩, hrest⟩ := List.forall_mem_cons.1 hsteps
    exact (grows_step hkeeps hreach t).andThen (ih hrest _)

theorem grows_edit {e : Edit} (hkeeps : e.removes = false) (hreach : ∀ q, e.Reaches q → reach q)
    (t : Tree) : Grows reach t (t.edit e) := by
  cases he : e.normalize? with
  | none =>
    rw [Tree.edit_of_normalize?_eq_none he]
    exact grows_unchanged reach t
  | some e' =>
    obtain ⟨hremoves, hmoves⟩ := Edit.removes_normalize? he
    rw [hkeeps] at hremoves
    have hstays : e'.moves = false := by
      rw [hremoves, imp_iff_not Bool.false_ne_true] at hmoves
      exact Bool.eq_false_iff.2 hmoves
    rw [Tree.edit_eq_run_of_normalize? he hstays]
    refine grows_run (fun s hs => ⟨Edit.removes_of_mem_steps hremoves hs, fun q hq => ?_⟩) t
    rw [Edit.path_of_mem_steps hs] at hq
    exact hreach q ⟨e', he, hq⟩

theorem grows_transact_within {edits : List Edit} (hkeeps : ∀ e ∈ edits, e.removes = false)
    (hreach : ∀ e ∈ edits, ∀ q, e.Reaches q → reach q) (t : Tree) :
    Grows reach t (t.transact edits) := by
  induction edits generalizing t with
  | nil => exact grows_unchanged reach t
  | cons e edits ih =>
    obtain ⟨hhead, htail⟩ := List.forall_mem_cons.1 hkeeps
    obtain ⟨hreachHead, hreachTail⟩ := List.forall_mem_cons.1 hreach
    rw [Tree.transact_cons]
    exact (grows_edit hhead hreachHead t).andThen (ih htail hreachTail _)

/-- A transaction without removals and moves adds nodes where its edits reach, and takes none away. -/
theorem grows_transact {edits : List Edit} (hkeeps : ∀ e ∈ edits, e.removes = false) (t : Tree) :
    Grows (fun q => ∃ e ∈ edits, e.Reaches q) t (t.transact edits) :=
  grows_transact_within hkeeps (fun e he _ hq => ⟨e, he, hq⟩) t

end Revision

end Graft
