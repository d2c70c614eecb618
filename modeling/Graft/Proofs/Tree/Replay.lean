import Graft.Proofs.Tree.WellFormed

/-!
# Replaying changes

Whoever is told of every change of a transaction can keep a list of the nodes and of the properties
that they have, without reading the tree. Such a list is an outline. A change says how to bring an
outline up to date (`Outline.replay`), and it comes when it makes sense to do so: what is added is
missing, what is changed or removed is there (`Outline.Admits`).

That a run of changes leads from one outline to another, each of them in its time, adds up
(`Replays.append`), so it is shown for one step of each kind. Only the removal of a subtree needs to
know that the tree is well-formed: one change stands for all nodes below the path, and it names a
node that is there.
-/

namespace Graft

/-- Which nodes there are, and which properties they have. -/
@[ext] structure Outline where
  node : Path → Bool
  property : Path → String → Bool

def Tree.outline (t : Tree) : Outline where
  node := t.contains
  property p name := (t.get? p).any (·.properties.contains name)

namespace Outline

/-- Whether a path names the property `name` of the node at `p`. -/
def names (path p : Path) (name : String) : Bool := path.parent == some p && path.name == name

def replay (o : Outline) (change : Change) : Outline :=
  match change.kind with
  | .nodeAdded => { o with node := fun q => q == change.path || o.node q }
  | .nodeRemoved =>
    { node := fun q => o.node q && !q.isWithin change.path
      property := fun q name => o.property q name && !q.isWithin change.path }
  | .propertyAdded | .propertyChanged =>
    { o with property := fun q name => names change.path q name || o.property q name }
  | .propertyRemoved =>
    { o with property := fun q name => !names change.path q name && o.property q name }

/-- The change makes sense where the outline is right. -/
def Admits (o : Outline) (change : Change) : Prop :=
  match change.kind with
  | .nodeAdded =>
    o.node change.path = false ∧ ∀ up, change.path.parent = some up → o.node up = true
  | .nodeRemoved => o.node change.path = true
  | .propertyAdded =>
    ∃ p, change.path.parent = some p ∧ o.node p = true ∧ o.property p change.path.name = false
  | .propertyChanged | .propertyRemoved =>
    ∃ p, change.path.parent = some p ∧ o.node p = true ∧ o.property p change.path.name = true

/-- The changes lead from the first outline to the last, and each of them makes sense in its
turn. -/
inductive Replays : Outline → List Change → Outline → Prop where
  | done {o} : Replays o [] o
  | next {o change changes o'} : o.Admits change → Replays (o.replay change) changes o' →
    Replays o (change :: changes) o'

namespace Replays

variable {o o' o'' : Outline} {change : Change} {changes changes' : List Change}

theorem one (h : o.Admits change) (heq : o.replay change = o') : Replays o [change] o' :=
  .next h (heq ▸ .done)

theorem append (h : Replays o changes o') (h' : Replays o' changes' o'') :
    Replays o (changes ++ changes') o'' := by
  induction h with
  | done => exact h'
  | next hadmits _ ih => exact .next hadmits (ih h')

theorem foldl_eq (h : Replays o changes o') : changes.foldl replay o = o' := by
  induction h with
  | done => rfl
  | next _ _ ih => exact ih

theorem admits (h : Replays o changes o') {first rest : List Change}
    (hsplit : changes = first ++ change :: rest) : (first.foldl replay o).Admits change := by
  induction h generalizing first with
  | done => exact absurd hsplit.symm (List.append_ne_nil_of_right_ne_nil _ (List.cons_ne_nil _ _))
  | next hadmits _ ih =>
    cases first with
    | nil =>
      obtain ⟨rfl, -⟩ := List.cons.inj hsplit
      exact hadmits
    | cons _ first =>
      obtain ⟨rfl, hrest⟩ := List.cons.inj hsplit
      exact ih hrest

end Replays

end Outline

/-- An edit that moves nothing and names a property by one segment. Its path may be any text. -/
def Edit.IsTraceable : Edit → Prop
  | .setProperty _ name _ | .removeProperty _ name => '/' ∉ name.toList
  | .addNode _ | .declare .. | .addTag .. | .removeNode _ => True
  | .moveNode _ _ => False

instance : DecidablePred Edit.IsTraceable
  | .setProperty _ name _ | .removeProperty _ name =>
    inferInstanceAs (Decidable ('/' ∉ name.toList))
  | .addNode _ | .declare .. | .addTag .. | .removeNode _ => inferInstanceAs (Decidable True)
  | .moveNode _ _ => inferInstanceAs (Decidable False)

/-- A step at a tidy path that names a property by one segment. -/
def Tree.Step.IsTraceable : Tree.Step → Prop
  | .create p | .tag p _ | .drop p => p.IsTidy
  | .put p name _ | .unset p name => p.IsTidy ∧ '/' ∉ name.toList

theorem Tree.Step.IsTraceable.isTidy_path {s : Tree.Step} (h : s.IsTraceable) : s.path.IsTidy := by
  cases s with
  | create p | tag p tag | drop p => exact h
  | put p name value | unset p name => exact h.1

theorem Edit.IsTraceable.of_normalize? {e e' : Edit} (h : e.IsTraceable)
    (he : e.normalize? = some e') : e'.moves = false ∧ ∀ s ∈ e'.steps, s.IsTraceable := by
  cases e with
  | moveNode p goal => exact h.elim
  | declare p source onParent overlayable =>
    obtain ⟨q, hq, rfl⟩ := Option.map_eq_some_iff.1 he
    have htidy := Path.isTidy_of_normalize? hq
    refine ⟨rfl, fun s hs => ?_⟩
    rcases Edit.mem_steps_declare hs with rfl | rfl | ⟨f, value, rfl⟩
    · exact htidy
    · exact htidy
    · exact ⟨htidy, f.no_separator_name⟩
  | setProperty p | removeProperty p =>
    obtain ⟨q, hq, rfl⟩ := Option.map_eq_some_iff.1 he
    exact ⟨rfl, List.forall_mem_singleton.2 ⟨Path.isTidy_of_normalize? hq, h⟩⟩
  | addNode p | addTag p | removeNode p =>
    obtain ⟨q, hq, rfl⟩ := Option.map_eq_some_iff.1 he
    exact ⟨rfl, List.forall_mem_singleton.2 (Path.isTidy_of_normalize? hq)⟩

namespace Tree

open Outline

variable {t : Tree} {p q : Path} {name : String} {node node' : Node}

/-! ## Outlines after a step -/

theorem node_outline_insert (t : Tree) (p : Path) (node : Node) (q : Path) :
    (outline (t.insert p node)).node q = (q == p || t.outline.node q) := by
  rw [Bool.eq_iff_iff, Bool.or_eq_true, beq_iff_eq]
  exact Table.contains_insert

theorem property_outline_insert (t : Tree) (p : Path) (node : Node) (q : Path) (name : String) :
    (outline (t.insert p node)).property q name =
      if q = p then node.properties.contains name else t.outline.property q name := by
  show Option.any _ ((t.insert p node).get? q) = _
  rw [Table.get?_insert]
  split
  · rfl
  · rfl

theorem property_outline (hp : t.get? p = some node) (name : String) :
    t.outline.property p name = node.properties.contains name := by
  show Option.any _ (t.get? p) = _
  rw [hp]
  rfl

theorem node_outline (hp : t.get? p = some node) : t.outline.node p = true :=
  Option.isSome_of_mem hp

/-- There are the same nodes after one of them has changed. -/
theorem node_outline_replace (hp : t.get? p = some node) (node' : Node) (q : Path) :
    (outline (t.insert p node')).node q = t.outline.node q := by
  rw [node_outline_insert]
  by_cases hq : q = p
  · rw [hq, node_outline hp, Bool.or_true]
  · rw [beq_false_of_ne hq, Bool.false_or]

/-- A node is as good as another one with the same properties. -/
theorem outline_insert_of_same (hp : t.get? p = some node)
    (hsame : node'.properties = node.properties) : outline (t.insert p node') = t.outline := by
  ext q name
  · exact node_outline_replace hp node' q
  · rw [property_outline_insert]
    split
    · next hq => rw [hq, property_outline hp, hsame]
    · rfl

/-! ## Steps are told in full -/

theorem replays_added (hp : t.contains p = false)
    (hup : ∀ up, p.parent = some up → t.contains up = true) :
    Replays t.outline [.added p] (outline (t.insert p .bare)) := by
  refine Replays.one ⟨hp, hup⟩ ?_
  ext q name
  · exact (node_outline_insert t p .bare q).symm
  · rw [property_outline_insert]
    split
    · next hq =>
      -- where there was no node there was no property
      have hnone : t.get? p = none := by simpa [Table.contains] using hp
      show Option.any _ (t.get? q) = false
      rw [hq, hnone]
      rfl
    · rfl

theorem not_contains_create_parent {up : Path} (hup : p.parent = some up)
    (hp : t.contains p = false) : (t.create up).tree.contains p = false := by
  rw [Table.contains, get?_create, if_neg]
  · exact hp
  · intro hmem
    have hlower := Path.length_lt_of_parent hup
    have hupper : p.chars.length ≤ up.chars.length := by
      rcases List.mem_cons.1 (List.takeWhile_subset _ hmem) with rfl | habove
      · exact Nat.le_refl _
      · have hle := (Path.mem_above_iff.1 habove).2.length_le
        rw [List.length_append] at hle
        omega
    omega

theorem replays_create (t : Tree) (p : Path) :
    Replays t.outline (t.create p).changes (t.create p).tree.outline := by
  induction p using Path.parent_induction with
  | h p ih =>
    rw [create_eq]
    split
    · exact .done
    next hp =>
    rw [Bool.not_eq_true] at hp
    split
    · next up hup =>
      apply (ih up hup).append
      apply replays_added (not_contains_create_parent hup hp)
      intro up' hup'
      obtain rfl := Option.some.inj (hup.symm.trans hup')
      exact contains_create_self t up
    · next htop =>
      rw [Revision.unchanged_andThen]
      apply replays_added hp
      rw [htop]
      rintro up ⟨⟩

theorem names_child (hp : p.chars ≠ []) (hname : '/' ∉ name.toList) (q : Path) (name' : String) :
    names (p.child name) q name' = (q == p && name' == name) := by
  rw [names, Path.parent_child hp hname, Path.name_child hname, Bool.eq_iff_iff]
  simp only [Bool.and_eq_true, beq_iff_eq, Option.some.injEq]
  exact and_congr eq_comm eq_comm

theorem outline_put (hp : p.chars ≠ []) (hname : '/' ∉ name.toList) (hnode : t.get? p = some node)
    (value : Value) : outline (t.insert p (node.put name value)) =
      ⟨t.outline.node, fun q name' =>
        names (p.child name) q name' || t.outline.property q name'⟩ := by
  ext q name'
  · exact node_outline_replace hnode _ q
  · show _ = (names (p.child name) q name' || t.outline.property q name')
    rw [property_outline_insert, names_child hp hname]
    split
    · next hq =>
      rw [hq, property_outline hnode, Bool.eq_iff_iff, Node.put, Table.contains_insert]
      simp
    · next hq => rw [beq_false_of_ne hq, Bool.false_and, Bool.false_or]

theorem outline_dropped (hp : p.chars ≠ []) (hname : '/' ∉ name.toList)
    (hnode : t.get? p = some node) : outline (t.insert p (node.dropped name)) =
      ⟨t.outline.node, fun q name' =>
        !names (p.child name) q name' && t.outline.property q name'⟩ := by
  ext q name'
  · exact node_outline_replace hnode _ q
  · show _ = (!names (p.child name) q name' && t.outline.property q name')
    rw [property_outline_insert, names_child hp hname]
    split
    · next hq =>
      rw [hq, property_outline hnode, Node.dropped, Table.contains, Table.contains,
        Table.get?_erase]
      by_cases hname' : name' = name
      · simp [hname']
      · simp [hname']
    · next hq => rw [beq_false_of_ne hq, Bool.false_and, Bool.not_false, Bool.true_and]

/-- A property that is there has been changed, and one that is not has been added. -/
theorem replays_put (hp : p.chars ≠ []) (hname : '/' ∉ name.toList) (hnode : t.get? p = some node)
    (value : Value) :
    Replays t.outline
      [.property p name
        (if node.properties.contains name then .propertyChanged else .propertyAdded)]
      (outline (t.insert p (node.put name value))) := by
  have hparent := Path.parent_child hp hname
  have hold : t.outline.property p (p.child name).name = node.properties.contains name := by
    rw [Path.name_child hname, property_outline hnode]
  have hnew := outline_put hp hname hnode value
  split
  · next hhas =>
    exact Replays.one ⟨p, hparent, node_outline hnode, hold.trans hhas⟩ hnew.symm
  · next hhas =>
    rw [Bool.not_eq_true] at hhas
    exact Replays.one ⟨p, hparent, node_outline hnode, hold.trans hhas⟩ hnew.symm

theorem replays_unset (hp : p.chars ≠ []) (hname : '/' ∉ name.toList) (hnode : t.get? p = some node)
    (hhas : node.properties.contains name = true) :
    Replays t.outline [.property p name .propertyRemoved]
      (outline (t.insert p (node.dropped name))) := by
  have hparent := Path.parent_child hp hname
  have hold : t.outline.property p (p.child name).name = true := by
    rw [Path.name_child hname, property_outline hnode, hhas]
  exact Replays.one ⟨p, hparent, node_outline hnode, hold⟩ (outline_dropped hp hname hnode).symm

theorem replays_drop (h : t.WellFormed) (hp : p.IsTidy) :
    Replays t.outline (t.drop p).changes (t.drop p).tree.outline := by
  rw [drop]
  split
  · exact .done
  next hsome =>
  rw [List.isEmpty_iff] at hsome
  obtain ⟨e, he⟩ := List.exists_mem_of_ne_nil _ hsome
  obtain ⟨hentry, hwithin⟩ := mem_subtree_iff.1 he
  have hnode := node_outline (Table.get?_eq_some_iff.2 hentry)
  refine Replays.one (h.contains_of_isWithin hnode (Path.chars_ne_nil_of_isTidy hp) hwithin) ?_
  ext q name
  · rw [Bool.eq_iff_iff]
    refine Iff.trans ?_ contains_prune.symm
    show (t.contains q && !q.isWithin p) = true ↔ _
    rw [Bool.and_eq_true, Bool.not_eq_true', Bool.not_eq_true]
  · show (Option.any _ (t.get? q) && !q.isWithin p) = Option.any _ ((t.prune p).get? q)
    rw [get?_prune]
    split
    · next hq => rw [hq, Bool.not_true, Bool.and_false]; rfl
    · next hq => rw [Bool.not_eq_true] at hq; rw [hq, Bool.not_false, Bool.and_true]

theorem replays_step (h : t.WellFormed) {s : Step} (hs : s.IsTraceable) :
    Replays t.outline (t.step s).changes (t.step s).tree.outline := by
  cases s with
  | create p => exact replays_create t p
  | tag p tag =>
    rw [step, putTag_eq]
    have hsame : outline ((t.create p).tree.insert p ((t.found p).tagged tag)) =
        (t.create p).tree.outline := outline_insert_of_same (get?_create_self t p) rfl
    apply (replays_create t p).append
    show Replays _ [] (outline ((t.create p).tree.insert p ((t.found p).tagged tag)))
    rw [hsame]
    exact .done
  | put p name value =>
    rw [step, putProperty_eq]
    exact (replays_create t p).append
      (replays_put (Path.chars_ne_nil_of_isTidy hs.1) hs.2 (get?_create_self t p) value)
  | unset p name =>
    rw [step, dropProperty]
    split
    · exact .done
    next node hnode =>
    split
    · next hhas => exact replays_unset (Path.chars_ne_nil_of_isTidy hs.1) hs.2 hnode hhas
    · exact .done
  | drop p => exact replays_drop h hs

/-! ## Transactions are told in full -/

theorem replays_run (h : t.WellFormed) {steps : List Step} (hsteps : ∀ s ∈ steps, s.IsTraceable) :
    Replays t.outline (t.run steps).changes (t.run steps).tree.outline := by
  induction steps generalizing t with
  | nil => exact .done
  | cons s steps ih =>
    rw [List.forall_mem_cons] at hsteps
    exact (replays_step h hsteps.1).append (ih (h.step hsteps.1.isTidy_path) hsteps.2)

theorem replays_edit (h : t.WellFormed) {e : Edit} (he : e.IsTraceable) :
    Replays t.outline (t.edit e).changes (t.edit e).tree.outline := by
  cases hnormal : e.normalize? with
  | none =>
    rw [edit_of_normalize?_eq_none hnormal]
    exact .done
  | some e' =>
    obtain ⟨hstays, hsteps⟩ := he.of_normalize? hnormal
    rw [edit_eq_run_of_normalize? hnormal hstays]
    exact replays_run h hsteps

theorem replays_transact (h : t.WellFormed) {edits : List Edit}
    (hedits : ∀ e ∈ edits, e.IsTraceable) :
    Replays t.outline (t.transact edits).changes (t.transact edits).tree.outline := by
  induction edits generalizing t with
  | nil => exact .done
  | cons e edits ih =>
    rw [List.forall_mem_cons] at hedits
    rw [transact_cons]
    exact (replays_edit h hedits.1).append (ih (h.edit e) hedits.2)

/-- Take a tree after any transactions, with whatever moves, and one more transaction that moves
nothing and names properties by one segment. To replay its changes in order is to bring the outline
of the tree up to date, and each change makes sense in its turn: a node is added where there is
none, below one that is there or at the top; a node that is removed is there; a property is added to
a node that is there and does not have it; and a property that is changed or removed is one that its
node has. -/
theorem transact_told_in_full (transactions : List (List Edit)) {edits : List Edit}
    (hedits : ∀ e ∈ edits, e.IsTraceable) :
    let t := after transactions
    let revision := t.transact edits
    revision.changes.foldl replay t.outline = revision.tree.outline ∧
    ∀ first change rest, revision.changes = first ++ change :: rest →
      (first.foldl replay t.outline).Admits change := by
  intro t revision
  have h : Replays t.outline revision.changes revision.tree.outline :=
    replays_transact (wellFormed_after transactions) hedits
  exact ⟨h.foldl_eq, fun first change rest => h.admits⟩

/-- A subtree that was moved is removed, and its top is created again with a property that is set
twice and then removed. -/
theorem transact_told_in_full_recreated :
    let transactions := [[.declare (.ofString "/a/b") "/s" false true],
      [.moveNode (.ofString "/a") (.ofString "/c/d")]]
    let edits : List Edit := [.removeNode (.ofString "/c/d"),
      .setProperty (.ofString " //c/d/e/") "x" (.flag true),
      .setProperty (.ofString "/c/d/e") "x" (.flag false),
      .removeProperty (.ofString "/c/d/e") "x", .addNode (.ofString "c")]
    let t := after transactions
    let revision := t.transact edits
    revision.changes.length = 6 ∧ t.outline.node (.ofString "/c/d/b") = true ∧
      revision.tree.outline.node (.ofString "/c/d/b") = false ∧
      revision.changes.foldl replay t.outline = revision.tree.outline := by
  intro transactions edits t revision
  have hedits : ∀ e ∈ edits, e.IsTraceable := by decide
  obtain ⟨hsame, -⟩ := transact_told_in_full transactions hedits
  exact ⟨by decide, by decide, by decide, hsame⟩

end Tree

end Graft
