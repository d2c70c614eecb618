import Graft.Proofs.Tree.WellFormed

/-!
# Sources beside the marker

A node declares a mapping by its source, and carries the marker so that it is found. Nothing makes
sure of the marker but the order of the edits: if every source is set where the marker stands at
that moment (`MarksFirst`) then sources stand beside the marker only (`SourcesMarked`), whatever
else is done. Tags are never taken off a node, and a move carries them along.
-/

namespace Graft

variable {p : Path}

/-- A source stands only beside the marker. -/
def Node.SourceMarked (node : Node) : Prop :=
  node.field .source ≠ none → Declaration.marker ∈ node.tags

namespace Node.SourceMarked

variable {node : Node}

theorem bare : Node.bare.SourceMarked := fun h => absurd rfl h

theorem tagged (h : node.SourceMarked) (tag : String) : (node.tagged tag).SourceMarked :=
  fun hsource => List.mem_insert_of_mem (h hsource)

theorem put (h : node.SourceMarked) {name : String} (value : Value)
    (hname : name = Field.source.name → Declaration.marker ∈ node.tags) :
    (node.put name value).SourceMarked := by
  intro hsource
  rw [field_put] at hsource
  split at hsource
  · next heq => exact hname heq.symm
  · exact h hsource

theorem dropped (h : node.SourceMarked) (name : String) : (node.dropped name).SourceMarked := by
  intro hsource
  rw [field_dropped] at hsource
  split at hsource
  · exact absurd rfl hsource
  · exact h hsource

end Node.SourceMarked

/-- If the edit sets a source then the marker stands there. -/
def Edit.MarksFirst (t : Tree) : Edit → Prop
  | .setProperty p name _ => name = Field.source.name →
    ∀ q ∈ p.normalize?, Declaration.marker ∈ (t.found q).tags
  | _ => True

instance (t : Tree) : DecidablePred (Edit.MarksFirst t)
  | .setProperty p name _ => inferInstanceAs (Decidable (name = Field.source.name →
    ∀ q ∈ p.normalize?, Declaration.marker ∈ (t.found q).tags))
  | .addNode _ | .declare _ _ _ _ | .removeProperty _ _ | .addTag _ _ | .removeNode _
  | .moveNode _ _ => isTrue trivial

namespace Tree

variable {t : Tree}

/-- Sources stand only beside the marker. -/
def SourcesMarked (t : Tree) : Prop := t.All fun _ node => node.SourceMarked

def Step.MarksFirst (t : Tree) : Step → Prop
  | .put p name _ => name = Field.source.name → Declaration.marker ∈ (t.found p).tags
  | _ => True

/-- The edits set sources only where the marker stands when they come to be made. -/
def MarksFirst (t : Tree) : List Edit → Prop
  | [] => True
  | e :: edits => e.MarksFirst t ∧ (t.edit e).tree.MarksFirst edits

instance decidableMarksFirst : (t : Tree) → (edits : List Edit) → Decidable (t.MarksFirst edits)
  | _, [] => isTrue trivial
  | t, e :: edits =>
    have := decidableMarksFirst (t.edit e).tree edits
    inferInstanceAs (Decidable (e.MarksFirst t ∧ (t.edit e).tree.MarksFirst edits))

theorem marksFirst_append {edits more : List Edit} : t.MarksFirst (edits ++ more) ↔
    t.MarksFirst edits ∧ (t.transact edits).tree.MarksFirst more := by
  induction edits generalizing t with
  | nil => exact ⟨fun h => ⟨trivial, h⟩, And.right⟩
  | cons e edits ih =>
    rw [List.cons_append, MarksFirst, MarksFirst, ih, transact_cons, and_assoc]
    rfl

namespace SourcesMarked

theorem found (h : t.SourcesMarked) (p : Path) : (t.found p).SourceMarked :=
  All.found h (fun _ => Node.SourceMarked.bare) p

theorem step (h : t.SourcesMarked) {s : Step} (hs : s.MarksFirst t) :
    (t.step s).tree.SourcesMarked := by
  refine All.step h (fun _ => Node.SourceMarked.bare) ?_
  cases s with
  | create p => trivial
  | tag p tag => exact (h.found p).tagged tag
  | put p name value => exact (h.found p).put value hs
  | unset p name => exact fun node hnode => Node.SourceMarked.dropped (h p node hnode) name
  | drop p => trivial

/-- Where the marker stands any properties may be set. -/
theorem puts (h : t.SourcesMarked) (hmarker : Declaration.marker ∈ (t.found p).tags)
    {steps : List Step} (hsteps : ∀ s ∈ steps, ∃ name value, s = .put p name value) :
    (t.run steps).tree.SourcesMarked := by
  induction steps generalizing t with
  | nil => exact h
  | cons s steps ih =>
    rw [List.forall_mem_cons] at hsteps
    obtain ⟨⟨name, value, rfl⟩, hrest⟩ := hsteps
    have hput : (t.step (.put p name value)).tree.SourcesMarked := h.step fun _ => hmarker
    refine ih hput ?_ hrest
    show Declaration.marker ∈ ((t.putProperty p name value).tree.found p).tags
    rw [Tree.found, get?_putProperty, if_pos rfl]
    exact hmarker

/-- A declaration is written with the marker first. -/
theorem declare (h : t.SourcesMarked) (p : Path) (source : String) (onParent overlayable : Bool) :
    (t.run (Edit.declare p source onParent overlayable).steps).tree.SourcesMarked := by
  have hcreated : (t.step (.create p)).tree.SourcesMarked := h.step trivial
  have htagged : ((t.step (.create p)).tree.step (.tag p Declaration.marker)).tree.SourcesMarked :=
    hcreated.step trivial
  apply htagged.puts (p := p)
  · show Declaration.marker ∈ (((t.create p).tree.putTag p Declaration.marker).tree.found p).tags
    rw [Tree.found, get?_putTag, if_pos rfl]
    exact List.mem_insert_self
  · intro s hs
    simp only [List.append_eq, List.mem_cons, List.mem_append, List.mem_ite_nil_right,
      List.not_mem_nil, or_false] at hs
    rcases hs with (rfl | ⟨-, rfl⟩) | ⟨-, rfl⟩
    · exact ⟨_, _, rfl⟩
    · exact ⟨_, _, rfl⟩
    · exact ⟨_, _, rfl⟩

theorem move (h : t.SourcesMarked) (p goal : Path) : (t.move p goal).tree.SourcesMarked := by
  by_cases hstay : goal.isWithin p = true ∨ (t.subtree p).isEmpty = true
  · rw [move_of_stay hstay]
    exact h
  · rw [not_or, Bool.not_eq_true, Bool.not_eq_true] at hstay
    apply All.move hstay.1 hstay.2 h (fun _ => Node.SourceMarked.bare)
    intro e he
    exact h e.1 e.2 (Table.get?_eq_some_iff.2 (mem_subtree_iff.1 he).1)

theorem edit (h : t.SourcesMarked) {e : Edit} (he : e.MarksFirst t) :
    (t.edit e).tree.SourcesMarked := by
  cases hnormal : e.normalize? with
  | none =>
    rw [edit_of_normalize?_eq_none hnormal]
    exact h
  | some e' =>
    cases e with
    | moveNode origin target =>
      obtain ⟨p, -, hmove⟩ := Option.bind_eq_some_iff.1 hnormal
      obtain ⟨goal, -, rfl⟩ := Option.map_eq_some_iff.1 hmove
      rw [(edit_eq_move_of_normalize? hnormal t).2.2]
      exact h.move p goal
    | declare q source onParent overlayable =>
      obtain ⟨p, -, rfl⟩ := Option.map_eq_some_iff.1 hnormal
      rw [edit_eq_run_of_normalize? hnormal rfl]
      exact h.declare p source onParent overlayable
    | setProperty q name value =>
      obtain ⟨p, hp, rfl⟩ := Option.map_eq_some_iff.1 hnormal
      rw [edit_eq_run_of_normalize? hnormal rfl]
      exact h.step (s := .put p name value) fun hname => he hname p hp
    | addNode q | removeNode q | addTag q | removeProperty q =>
      obtain ⟨p, -, rfl⟩ := Option.map_eq_some_iff.1 hnormal
      rw [edit_eq_run_of_normalize? hnormal rfl]
      exact h.step trivial

theorem transact (h : t.SourcesMarked) {edits : List Edit} (hedits : t.MarksFirst edits) :
    (t.transact edits).tree.SourcesMarked := by
  induction edits generalizing t with
  | nil => exact h
  | cons e edits ih =>
    rw [transact_cons]
    exact ih (h.edit hedits.1) hedits.2

end SourcesMarked

theorem sourcesMarked_after {transactions : List (List Edit)}
    (h : Tree.MarksFirst .empty transactions.flatten) : (after transactions).SourcesMarked := by
  have hrun : ∀ (transactions : List (List Edit)) (t : Tree), t.SourcesMarked →
      t.MarksFirst transactions.flatten →
      (transactions.foldl (fun t edits => (t.transact edits).tree) t).SourcesMarked := by
    intro transactions
    induction transactions with
    | nil => exact fun t ht _ => ht
    | cons edits transactions ih =>
      intro t ht hedits
      rw [List.flatten_cons, marksFirst_append] at hedits
      exact ih _ (ht.transact hedits.1) hedits.2
  exact hrun transactions .empty (fun _ _ hnode => nomatch hnode) h

end Tree

end Graft
