import Graft.Proofs.Tree.Subtree
import Mathlib.Data.List.TakeWhile

/-!
# What edits do to nodes

An edit names paths in any form. It does nothing if one of them has no normal form, and otherwise it
is carried out at the normal forms (`Edit.normalize?`). Unless it is a move, it is a list of steps of
five kinds then (`edit_eq_run_of_normalize?`).

Plain edits name nodes by their normal forms and properties by one segment, and move nothing. A
transaction of plain edits is a list of steps as well (`transact_eq_run`): what holds of each step
and adds up holds of transactions.

There is one look-up equation per kind of step: creation fills in bare nodes where there were none,
setting and tagging replace the node at the path, removal empties the subtree. What every node of a
tree satisfies is kept by a step that keeps it at its own path, if it holds of bare nodes (`All`).
-/

namespace Graft

/-- An edit at a path in normal form that moves nothing and names a property by one segment. -/
def Edit.IsPlain : Edit → Prop
  | .addNode p | .declare p _ _ _ | .addTag p _ | .removeNode p => p.isNormal = true
  | .setProperty p name _ | .removeProperty p name => p.isNormal = true ∧ '/' ∉ name.toList
  | .moveNode _ _ => False

instance : DecidablePred Edit.IsPlain
  | .addNode p | .declare p _ _ _ | .addTag p _ | .removeNode p =>
    inferInstanceAs (Decidable (p.isNormal = true))
  | .setProperty p name _ | .removeProperty p name =>
    inferInstanceAs (Decidable (p.isNormal = true ∧ '/' ∉ name.toList))
  | .moveNode _ _ => inferInstanceAs (Decidable False)

def Node.put (node : Node) (name : String) (value : Value) : Node :=
  { node with properties := node.properties.insert name value }

def Node.dropped (node : Node) (name : String) : Node :=
  { node with properties := node.properties.erase name }

def Node.tagged (node : Node) (tag : String) : Node := { node with tags := node.tags.insert tag }

def Node.field (node : Node) (f : Field) : Option Value := node.properties.get? f.name

/-- Whether a node asks for its parent's path in place of its own. -/
def Node.onParent (node : Node) : Bool := ((node.field .onParent).bind Value.asFlag?).getD false

theorem Node.field_put (node : Node) (name : String) (value : Value) (f : Field) :
    (node.put name value).field f = if f.name = name then some value else node.field f :=
  Table.get?_insert _ _ _ _

theorem Node.field_dropped (node : Node) (name : String) (f : Field) :
    (node.dropped name).field f = if f.name = name then none else node.field f :=
  Table.get?_erase _ _ _

namespace Tree

variable {t : Tree} {p q : Path}

/-! ## Look-ups after an edit -/

/-- The node that an edit finds at `p`: a bare one if there is none. -/
def found (t : Tree) (p : Path) : Node := (t.get? p).getD .bare

def field (t : Tree) (p : Path) (f : Field) : Option Value := (t.get? p).bind (·.field f)

/-- The paths that creation at `p` fills. -/
def missing (t : Tree) (p : Path) : List Path := p.ancestors.takeWhile (!t.contains ·)

theorem get?_eq_none_of_mem_missing (h : q ∈ t.missing p) : t.get? q = none := by
  have hq := List.mem_takeWhile_imp h
  simpa [Table.contains] using hq

theorem mem_missing_self_iff : p ∈ t.missing p ↔ t.get? p = none := by
  refine ⟨get?_eq_none_of_mem_missing, fun h => ?_⟩
  have hp : (!t.contains p) = true := by simp [Table.contains, h]
  rw [missing, Path.ancestors, List.takeWhile_cons, if_pos hp]
  exact List.mem_cons_self

theorem get?_create (t : Tree) (p q : Path) :
    (t.create p).tree.get? q = if q ∈ t.missing p then some .bare else t.get? q := by
  have hfold := Table.get?_foldl_insert (t.missing p).reverse t .bare q
  simp only [List.foldl_reverse, List.mem_reverse] at hfold
  exact hfold

theorem get?_create_self (t : Tree) (p : Path) :
    (t.create p).tree.get? p = some (t.found p) := by
  rw [get?_create, found]
  cases h : t.get? p with
  | none => rw [if_pos (mem_missing_self_iff.2 h)]; rfl
  | some node =>
    rw [if_neg]
    · rfl
    · intro hmem
      rw [mem_missing_self_iff, h] at hmem
      cases hmem

theorem contains_create_self (t : Tree) (p : Path) : (t.create p).tree.contains p = true := by
  rw [Table.contains, get?_create_self]
  rfl

/-- A property is set on the node that creation has left at the path. -/
theorem putProperty_eq (t : Tree) (p : Path) (name : String) (value : Value) :
    t.putProperty p name value = (t.create p).andThen fun u =>
      ⟨u.insert p ((t.found p).put name value), [.property p name
        (if (t.found p).properties.contains name then .propertyChanged else .propertyAdded)]⟩ := by
  simp only [putProperty, Revision.andThen, get?_create_self]
  rfl

theorem putTag_eq (t : Tree) (p : Path) (tag : String) :
    t.putTag p tag =
      (t.create p).andThen fun u => ⟨u.insert p ((t.found p).tagged tag), []⟩ := by
  simp only [putTag, Revision.andThen, get?_create_self]
  rfl

theorem get?_putProperty (t : Tree) (p q : Path) (name : String) (value : Value) :
    (t.putProperty p name value).tree.get? q =
      if q = p then some ((t.found p).put name value) else (t.create p).tree.get? q := by
  rw [putProperty_eq]
  exact Table.get?_insert _ _ _ _

theorem get?_putTag (t : Tree) (p q : Path) (tag : String) :
    (t.putTag p tag).tree.get? q =
      if q = p then some ((t.found p).tagged tag) else (t.create p).tree.get? q := by
  rw [putTag_eq]
  exact Table.get?_insert _ _ _ _

theorem get?_dropProperty (t : Tree) (p q : Path) (name : String) :
    (t.dropProperty p name).tree.get? q =
      if q = p then (t.get? p).map (·.dropped name) else t.get? q := by
  unfold dropProperty
  split
  · next hnone =>
    split
    · next hq => rw [hq, unchanged, hnone]; rfl
    · rfl
  next node hnode =>
  rw [hnode]
  split
  · rw [Table.get?_insert]
    rfl
  · next hname =>
    -- the node has no such property, and without it it is the same node
    have hsame : node.dropped name = node := by
      rw [Node.dropped, Table.erase_eq_self (by simpa using hname)]
    split
    · next hq => rw [hq, unchanged, hnode, Option.map_some, hsame]
    · rfl

theorem get?_drop (t : Tree) (p q : Path) :
    (t.drop p).tree.get? q = if q.isWithin p then none else t.get? q := by
  unfold drop
  split
  · next hempty =>
    split
    · next hq => exact subtree_isEmpty_iff.1 hempty q hq
    · rfl
  · exact get?_prune t p q

/-! ## Steps -/

/-- What edits are made of. -/
inductive Step where
  | create (p : Path)
  | tag (p : Path) (tag : String)
  | put (p : Path) (name : String) (value : Value)
  | unset (p : Path) (name : String)
  | drop (p : Path)

/-- A step at a path in normal form that names a property by one segment. -/
def Step.IsPlain : Step → Prop
  | .create p | .tag p _ | .drop p => p.isNormal = true
  | .put p name _ | .unset p name => p.isNormal = true ∧ '/' ∉ name.toList

def step (t : Tree) : Step → Revision
  | .create p => t.create p
  | .tag p tag => t.putTag p tag
  | .put p name value => t.putProperty p name value
  | .unset p name => t.dropProperty p name
  | .drop p => t.drop p

def run (t : Tree) : List Step → Revision
  | [] => t.unchanged
  | s :: steps => (t.step s).andThen (·.run steps)

end Tree

open Graft.Tree (Step)

def Edit.normalize? : Edit → Option Edit
  | .addNode p => p.normalize?.map .addNode
  | .declare p source onParent overlayable =>
    p.normalize?.map (.declare · source onParent overlayable)
  | .setProperty p name value => p.normalize?.map (.setProperty · name value)
  | .removeProperty p name => p.normalize?.map (.removeProperty · name)
  | .addTag p tag => p.normalize?.map (.addTag · tag)
  | .removeNode p => p.normalize?.map .removeNode
  | .moveNode p goal => p.normalize?.bind fun p => goal.normalize?.map (.moveNode p)

def Edit.moves : Edit → Bool
  | .moveNode _ _ => true
  | _ => false

theorem Edit.eq_moveNode {e : Edit} (h : e.moves = true) : ∃ p goal, e = .moveNode p goal := by
  cases e with
  | moveNode p goal => exact ⟨p, goal, rfl⟩
  | addNode p | declare p | removeNode p | addTag p | setProperty p | removeProperty p => cases h

theorem Edit.normalize?_of_isPlain {e : Edit} (he : e.IsPlain) : e.normalize? = some e := by
  cases e with
  | setProperty p | removeProperty p =>
    rw [normalize?, Path.isNormal_iff.1 he.1]
    rfl
  | addNode p | declare p | addTag p | removeNode p =>
    rw [normalize?, Path.isNormal_iff.1 he]
    rfl
  | moveNode p goal => exact he.elim

/-- The steps of a plain edit. A declaration has one step more for each flag that it sets. -/
def Edit.steps : Edit → List Step
  | .addNode p => [.create p]
  | .declare p source onParent overlayable =>
    [.create p, .tag p Declaration.marker, .put p Field.source.name (.text source)] ++
      (if onParent then [.put p Field.onParent.name (.flag true)] else []) ++
      (if overlayable then [.put p Field.overlayable.name (.flag true)] else [])
  | .setProperty p name value => [.put p name value]
  | .removeProperty p name => [.unset p name]
  | .addTag p tag => [.tag p tag]
  | .removeNode p => [.drop p]
  | .moveNode _ _ => []

theorem Field.no_separator_name (f : Field) : '/' ∉ f.name.toList := by cases f <;> decide

theorem Edit.mem_steps_declare {p : Path} {source : String} {onParent overlayable : Bool} {s : Step}
    (h : s ∈ (Edit.declare p source onParent overlayable).steps) :
    s = .create p ∨ s = .tag p Declaration.marker ∨
      ∃ (f : Field) (value : Value), s = .put p f.name value := by
  have hflag : ∀ {b : Bool} {f : Field}, s ∈ (if b then [Step.put p f.name (.flag true)] else []) →
      ∃ (f : Field) (value : Value), s = .put p f.name value := by
    intro b f hs
    cases b with
    | false => exact absurd hs List.not_mem_nil
    | true => exact ⟨f, .flag true, List.mem_singleton.1 hs⟩
  simp only [steps, List.mem_append, List.mem_cons, List.not_mem_nil, or_false] at h
  rcases h with ((rfl | rfl | rfl) | h) | h
  · exact Or.inl rfl
  · exact Or.inr (Or.inl rfl)
  · exact Or.inr (Or.inr ⟨.source, .text source, rfl⟩)
  · exact Or.inr (Or.inr (hflag h))
  · exact Or.inr (Or.inr (hflag h))

def Edit.path : Edit → Path
  | .addNode p | .declare p _ _ _ | .setProperty p _ _ | .removeProperty p _ | .addTag p _
  | .removeNode p | .moveNode p _ => p

def Tree.Step.path : Tree.Step → Path
  | .create p | .tag p _ | .put p _ _ | .unset p _ | .drop p => p

theorem Edit.path_of_mem_steps {e : Edit} {s : Tree.Step} (hs : s ∈ e.steps) : s.path = e.path := by
  cases e with
  | declare p source onParent overlayable =>
    rcases mem_steps_declare hs with rfl | rfl | ⟨f, value, rfl⟩
    · rfl
    · rfl
    · rfl
  | addNode p => rw [List.mem_singleton.1 hs]; rfl
  | setProperty p name value => rw [List.mem_singleton.1 hs]; rfl
  | removeProperty p name => rw [List.mem_singleton.1 hs]; rfl
  | addTag p tag => rw [List.mem_singleton.1 hs]; rfl
  | removeNode p => rw [List.mem_singleton.1 hs]; rfl
  | moveNode p goal => exact absurd hs List.not_mem_nil

theorem Edit.isTidy_path {e e' : Edit} (he : e.normalize? = some e') : e'.path.IsTidy := by
  cases e with
  | moveNode p goal =>
    obtain ⟨q, hq, hmove⟩ := Option.bind_eq_some_iff.1 he
    obtain ⟨goal', -, rfl⟩ := Option.map_eq_some_iff.1 hmove
    exact Path.isTidy_of_normalize? hq
  | addNode p | declare p | removeNode p | addTag p | setProperty p | removeProperty p =>
    obtain ⟨q, hq, rfl⟩ := Option.map_eq_some_iff.1 he
    exact Path.isTidy_of_normalize? hq

theorem Edit.steps_plain {e : Edit} (he : e.IsPlain) : ∀ s ∈ e.steps, s.IsPlain := by
  cases e with
  | declare p source onParent overlayable =>
    intro s hs
    rcases mem_steps_declare hs with rfl | rfl | ⟨f, value, rfl⟩
    · exact he
    · exact he
    · exact ⟨he, f.no_separator_name⟩
  | addNode p => exact List.forall_mem_singleton.2 he
  | setProperty p name value => exact List.forall_mem_singleton.2 he
  | removeProperty p name => exact List.forall_mem_singleton.2 he
  | addTag p tag => exact List.forall_mem_singleton.2 he
  | removeNode p => exact List.forall_mem_singleton.2 he
  | moveNode p goal => exact he.elim

theorem Edit.steps_plain_of_mem {edits : List Edit} (hedits : ∀ e ∈ edits, e.IsPlain) :
    ∀ s ∈ edits.flatMap Edit.steps, s.IsPlain := by
  intro s hs
  obtain ⟨e, he, hse⟩ := List.mem_flatMap.1 hs
  exact Edit.steps_plain (hedits e he) s hse

namespace Revision

@[simp] theorem andThen_unchanged (r : Revision) : r.andThen Tree.unchanged = r := by
  simp [andThen, Tree.unchanged]

@[simp] theorem unchanged_andThen (t : Tree) (next : Tree → Revision) :
    t.unchanged.andThen next = next t := by
  simp [andThen, Tree.unchanged]

theorem andThen_assoc (r : Revision) (next last : Tree → Revision) :
    (r.andThen next).andThen last = r.andThen fun t => (next t).andThen last := by
  simp [andThen]

end Revision

namespace Tree

variable {t : Tree} {p q : Path}

theorem run_append (t : Tree) (steps more : List Step) :
    t.run (steps ++ more) = (t.run steps).andThen (·.run more) := by
  induction steps generalizing t with
  | nil => rw [List.nil_append, run, Revision.unchanged_andThen]
  | cons s steps ih =>
    rw [List.cons_append, run, run, Revision.andThen_assoc]
    exact congrArg (t.step s).andThen (funext fun u => ih u)

/-- An edit whose path has a normal form is the steps of the edit at the normal form. -/
theorem edit_eq_run_of_normalize? {e e' : Edit} (he : e.normalize? = some e')
    (hstays : e'.moves = false) (t : Tree) : t.edit e = t.run e'.steps := by
  have hone : ∀ s, t.run [s] = t.step s := fun s => Revision.andThen_unchanged (t.step s)
  cases e with
  | declare p source onParent overlayable =>
    obtain ⟨q, hq, rfl⟩ := Option.map_eq_some_iff.1 he
    simp only [edit, withNormal, hq, Edit.steps]
    rw [run_append, run_append]
    have hbase : t.run [.create q, .tag q Declaration.marker,
        .put q Field.source.name (.text source)] =
        ((t.create q).andThen (·.putTag q Declaration.marker)).andThen
          (·.putProperty q Field.source.name (.text source)) := by
      rw [Revision.andThen_assoc]
      exact congrArg (t.create q).andThen (funext fun u => congrArg (u.putTag _ _).andThen
        (funext fun v => Revision.andThen_unchanged (v.putProperty _ _ _)))
    have hflag : ∀ (b : Bool) (s : Step) (r : Revision),
        (r.andThen (·.run (if b then [s] else []))) = if b then r.andThen (·.step s) else r := by
      intro b s r
      cases b with
      | false => exact Revision.andThen_unchanged r
      | true => exact congrArg r.andThen (funext fun u => Revision.andThen_unchanged (u.step s))
    rw [hbase, hflag, hflag]
    rfl
  | addNode p | removeNode p | addTag p tag | setProperty p name value | removeProperty p name =>
    obtain ⟨q, hq, rfl⟩ := Option.map_eq_some_iff.1 he
    rw [edit, withNormal, hq, Edit.steps, hone]
    rfl
  | moveNode p goal =>
    obtain ⟨q, -, hmove⟩ := Option.bind_eq_some_iff.1 he
    obtain ⟨goal', -, rfl⟩ := Option.map_eq_some_iff.1 hmove
    cases hstays

/-- An edit without a normal form does nothing. -/
theorem edit_of_normalize?_eq_none {e : Edit} (he : e.normalize? = none) (t : Tree) :
    t.edit e = t.unchanged := by
  cases e with
  | moveNode p goal =>
    rw [Edit.normalize?] at he
    rw [edit, withNormal]
    cases hp : p.normalize? with
    | none => rfl
    | some q =>
      rw [hp, Option.bind_some, Option.map_eq_none_iff] at he
      simp only [withNormal, he]
  | addNode p | declare p | removeNode p | addTag p | setProperty p | removeProperty p =>
    rw [edit, withNormal, Option.map_eq_none_iff.1 he]

theorem edit_eq_move_of_normalize? {e : Edit} {p goal : Path}
    (he : e.normalize? = some (.moveNode p goal)) (t : Tree) :
    p.IsTidy ∧ goal.IsTidy ∧ t.edit e = t.move p goal := by
  cases e with
  | moveNode origin target =>
    obtain ⟨q, hq, hmove⟩ := Option.bind_eq_some_iff.1 he
    obtain ⟨goal', hgoal, heq⟩ := Option.map_eq_some_iff.1 hmove
    obtain ⟨rfl, rfl⟩ := Edit.moveNode.inj heq
    refine ⟨Path.isTidy_of_normalize? hq, Path.isTidy_of_normalize? hgoal, ?_⟩
    simp only [edit, withNormal, hq, hgoal]
  | addNode p | declare p | removeNode p | addTag p | setProperty p | removeProperty p =>
    obtain ⟨q, -, heq⟩ := Option.map_eq_some_iff.1 he
    cases heq

theorem edit_eq_run {e : Edit} (he : e.IsPlain) (t : Tree) : t.edit e = t.run e.steps := by
  apply edit_eq_run_of_normalize? (Edit.normalize?_of_isPlain he)
  cases e with
  | moveNode p goal => exact he.elim
  | addNode p | declare p | removeNode p | addTag p | setProperty p | removeProperty p => rfl

theorem transact_cons (t : Tree) (e : Edit) (edits : List Edit) :
    t.transact (e :: edits) = (t.edit e).andThen (·.transact edits) := by
  have hfold : ∀ r : Revision, edits.foldl (fun r e => r.andThen (·.edit e)) r =
      r.andThen (·.transact edits) := by
    induction edits with
    | nil => exact fun r => (Revision.andThen_unchanged r).symm
    | cons e edits ih =>
      intro r
      rw [List.foldl_cons, ih, Revision.andThen_assoc]
      refine congrArg r.andThen (funext fun u => ?_)
      show _ = edits.foldl _ (u.unchanged.andThen (·.edit e))
      rw [ih, Revision.unchanged_andThen]
  rw [transact, List.foldl_cons, hfold, Revision.unchanged_andThen]

/-- A transaction is the steps of its edits, one after the other. -/
theorem transact_eq_run {edits : List Edit} (hedits : ∀ e ∈ edits, e.IsPlain) (t : Tree) :
    t.transact edits = t.run (edits.flatMap Edit.steps) := by
  induction edits generalizing t with
  | nil => rfl
  | cons e edits ih =>
    rw [transact_cons, edit_eq_run (hedits e List.mem_cons_self), List.flatMap_cons, run_append]
    exact congrArg (t.run e.steps).andThen
      (funext fun u => ih (fun e he => hedits e (List.mem_cons_of_mem _ he)) u)

/-! ## What holds of every node -/

def All (K : Path → Node → Prop) (t : Tree) : Prop := ∀ p node, t.get? p = some node → K p node

theorem all_iff_entries {K : Path → Node → Prop} : t.All K ↔ ∀ e ∈ t.entries, K e.1 e.2 := by
  constructor
  · exact fun h e he => h e.1 e.2 (Table.get?_eq_some_iff.2 he)
  · exact fun h p node hnode => h (p, node) (Table.get?_eq_some_iff.1 hnode)

instance {K : Path → Node → Prop} [∀ p node, Decidable (K p node)] : Decidable (t.All K) :=
  decidable_of_iff _ all_iff_entries.symm

/-- The step leaves a node that satisfies `K` at its path. -/
def Step.Keeps (K : Path → Node → Prop) (t : Tree) : Step → Prop
  | .create _ | .drop _ => True
  | .tag p name => K p ((t.found p).tagged name)
  | .put p name value => K p ((t.found p).put name value)
  | .unset p name => ∀ node, t.get? p = some node → K p (node.dropped name)

namespace All

variable {K : Path → Node → Prop}

theorem found (h : t.All K) (hbare : ∀ q, K q .bare) (p : Path) : K p (t.found p) := by
  rw [Tree.found]
  cases hp : t.get? p with
  | none => exact hbare p
  | some node => exact h p node hp

theorem create (h : t.All K) (hbare : ∀ q, K q .bare) (p : Path) : (t.create p).tree.All K := by
  intro q node hq
  rw [get?_create] at hq
  split at hq
  · rw [← Option.some.inj hq]
    exact hbare q
  · exact h q node hq

theorem step (h : t.All K) (hbare : ∀ q, K q .bare) {s : Step} (hs : s.Keeps K t) :
    (t.step s).tree.All K := by
  have hcreate := h.create hbare
  intro q node hq
  cases s with
  | create p => exact hcreate p q node hq
  | tag p tag =>
    rw [Tree.step, get?_putTag] at hq
    split at hq
    · next heq =>
      rw [heq, ← Option.some.inj hq]
      exact hs
    · exact hcreate p q node hq
  | put p name value =>
    rw [Tree.step, get?_putProperty] at hq
    split at hq
    · next heq =>
      rw [heq, ← Option.some.inj hq]
      exact hs
    · exact hcreate p q node hq
  | unset p name =>
    rw [Tree.step, get?_dropProperty] at hq
    split at hq
    · next heq =>
      obtain ⟨node', hnode', rfl⟩ := Option.map_eq_some_iff.1 hq
      rw [heq]
      exact hs node' hnode'
    · exact h q node hq
  | drop p =>
    rw [Tree.step, get?_drop] at hq
    split at hq
    · cases hq
    · exact h q node hq

/-- What holds of bare nodes and of all nodes at normal forms is kept by plain steps. -/
theorem run (h : t.All K) (hbare : ∀ q, K q .bare) (hnormal : ∀ q node, q.isNormal = true → K q node)
    {steps : List Step} (hsteps : ∀ s ∈ steps, s.IsPlain) : (t.run steps).tree.All K := by
  induction steps generalizing t with
  | nil => exact h
  | cons s steps ih =>
    refine ih (h.step hbare ?_) fun s hs => hsteps s (List.mem_cons_of_mem _ hs)
    -- a step changes no node but the one at its own path, which is a normal form
    have hs := hsteps s List.mem_cons_self
    cases s with
    | create p => trivial
    | tag p tag => exact hnormal p _ hs
    | put p name value => exact hnormal p _ hs.1
    | unset p name => exact fun _ _ => hnormal p _ hs.1
    | drop p => trivial

end All

/-- No node asks for its parent's path. -/
def NoneOnParent (t : Tree) : Prop := t.All fun _ node => node.onParent = false

instance (t : Tree) : Decidable t.NoneOnParent :=
  inferInstanceAs (Decidable (t.All fun _ node => node.onParent = false))

/-- Only nodes at normal forms carry anything. -/
def Regular (t : Tree) : Prop := t.All fun p node => node = .bare ∨ p.isNormal = true

theorem regular_transact (h : t.Regular) {edits : List Edit} (hedits : ∀ e ∈ edits, e.IsPlain) :
    (t.transact edits).tree.Regular := by
  rw [transact_eq_run hedits]
  exact All.run h (fun _ => Or.inl rfl) (fun _ _ hq => Or.inr hq) (Edit.steps_plain_of_mem hedits)

end Tree

end Graft
