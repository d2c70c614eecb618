import Graft.Proofs.Tree.Accounts
import Graft.Proofs.Tree.Markers
import Graft.Repository.Basic

/-!
# Transactions below a watched path

Who watches a path is told about the changes at or below it and no others. If all edits are made
there then what is left out asks for nothing, so the batch that the watcher gets accounts for the
transaction (`accounts_batch`).

The trees considered have sources only beside the marker (`Marked`). Edits keep this if they set a
source only where the marker stands at that moment (`Admits`).
-/

namespace Graft

variable {watched : Path}

/-! ## Edits below a path -/

namespace Tree

variable {t : Tree}

/-- What a step at or below a path reports elsewhere asks for nothing. -/
theorem asks_of_step {s : Step} (hs : s.IsPlain) (hpath : s.path.isWithin watched = true)
    {change : Change} (hmem : change ∈ (t.step s).changes)
    (hout : change.path.isWithin watched ≠ true) (p : Path) : change.asks p = none := by
  have hadded : ∀ q, change ∈ (t.create q).changes → change.asks p = none := by
    intro q hq
    obtain ⟨q', -, rfl⟩ := List.mem_map.1 hq
    rfl
  have hproperty : ∀ {q : Path} {name : String} {kind : Change.Kind}, q.isNormal = true →
      '/' ∉ name.toList → q.isWithin watched = true → kind.isProperty = true →
      change = .property q name kind → change.asks p = none := by
    rintro q name kind hq hname hwithin hkind rfl
    by_cases hempty : name = ""
    -- such a change may be told elsewhere, but it is of no field
    · rw [Change.asks_property hq hname hkind, hempty]
      exact if_neg fun h => nomatch h.2
    · exact absurd (Path.child_isWithin hempty hwithin) hout
  cases s with
  | create q => exact hadded q hmem
  | tag q tag => exact hadded q (by simpa [step, putTag, Revision.andThen] using hmem)
  | put q name value =>
    rcases List.mem_append.1 hmem with hmem | hmem
    · exact hadded q hmem
    · refine hproperty hs.1 hs.2 hpath ?_ (List.mem_singleton.1 hmem)
      split
      · rfl
      · rfl
  | unset q name =>
    rw [step, dropProperty] at hmem
    split at hmem
    · exact absurd hmem List.not_mem_nil
    split at hmem
    · exact hproperty hs.1 hs.2 hpath rfl (List.mem_singleton.1 hmem)
    · exact absurd hmem List.not_mem_nil
  | drop q =>
    rw [step, drop] at hmem
    split at hmem
    · exact absurd hmem List.not_mem_nil
    · rw [List.mem_singleton.1 hmem] at hout
      exact absurd hpath hout

theorem asks_of_run {steps : List Step} (hsteps : ∀ s ∈ steps, s.IsPlain)
    (hpath : ∀ s ∈ steps, s.path.isWithin watched = true) {change : Change}
    (hmem : change ∈ (t.run steps).changes) (hout : change.path.isWithin watched ≠ true)
    (p : Path) : change.asks p = none := by
  induction steps generalizing t with
  | nil => exact absurd hmem List.not_mem_nil
  | cons s steps ih =>
    rcases List.mem_append.1 hmem with hmem | hmem
    · exact asks_of_step (hsteps s List.mem_cons_self) (hpath s List.mem_cons_self) hmem hout p
    · exact ih (fun s hs => hsteps s (List.mem_cons_of_mem _ hs))
        (fun s hs => hpath s (List.mem_cons_of_mem _ hs)) hmem

end Tree

theorem Change.lastAsk_filter {p : Path} {changes : List Change} {keep : Change → Bool}
    (h : ∀ change ∈ changes, keep change ≠ true → change.asks p = none) :
    lastAsk p (changes.filter keep) = lastAsk p changes := by
  induction changes with
  | nil => rfl
  | cons change changes ih =>
    have hrest := ih fun x hx => h x (List.mem_cons_of_mem _ hx)
    by_cases hkeep : keep change = true
    · rw [List.filter_cons, if_pos hkeep, lastAsk_cons, lastAsk_cons, hrest]
    · rw [List.filter_cons, if_neg hkeep, lastAsk_cons, hrest, h change List.mem_cons_self hkeep,
        Option.or_none]

/-- The part of a transaction's changes that a watcher is told accounts for the transaction, if all
edits are made where the watcher looks. -/
theorem accounts_batch {edits : List Edit} (hplain : ∀ e ∈ edits, e.IsPlain)
    (hpath : ∀ e ∈ edits, e.path.isWithin watched = true) (t : Tree) (id : Nat) :
    Accounts t ⟨(t.transact edits).tree,
      Repository.Subscription.batch ⟨id, watched⟩ (t.transact edits).changes⟩ := by
  refine (Accounts.transact hplain t).of_lastAsk_eq List.filter_sublist.subset fun p => ?_
  refine Change.lastAsk_filter fun change hmem hout => ?_
  rw [Tree.transact_eq_run hplain] at hmem
  refine Tree.asks_of_run (Edit.steps_plain_of_mem hplain) (fun s hs => ?_) hmem hout p
  obtain ⟨e, he, hse⟩ := List.mem_flatMap.1 hs
  rw [Edit.path_of_mem_steps hse]
  exact hpath e he

/-! ## Sources beside the marker -/

/-- A node that asks for its own path and has a source only beside the marker. -/
structure Node.Marked (node : Node) : Prop where
  own : node.onParent = false
  source : node.field .source ≠ none → Declaration.marker ∈ node.tags

theorem Node.marked_bare : Node.bare.Marked := ⟨rfl, fun h => absurd rfl h⟩

namespace Node.Marked

variable {node : Node}

theorem tagged (h : node.Marked) (tag : String) : (node.tagged tag).Marked :=
  ⟨h.own, Node.SourceMarked.tagged h.source tag⟩

theorem put (h : node.Marked) {name : String} {value : Value}
    (hflag : name = Field.onParent.name → value.asFlag? ≠ some true)
    (hsource : name = Field.source.name → Declaration.marker ∈ node.tags) :
    (node.put name value).Marked where
  own := by
    rw [onParent, field_put]
    split
    · next hname =>
      have hvalue := hflag hname.symm
      cases hread : value.asFlag? with
      | none => simp [hread]
      | some b =>
        cases b with
        | false => simp [hread]
        | true => exact absurd hread hvalue
    · exact h.own
  source := Node.SourceMarked.put h.source value hsource

theorem dropped (h : node.Marked) (name : String) : (node.dropped name).Marked where
  own := by
    rw [onParent, field_dropped]
    split
    · rfl
    · exact h.own
  source := Node.SourceMarked.dropped h.source name

end Node.Marked

/-- The edit sets no flag for the parent's path, and a source only where the marker stands. -/
def Edit.KeepsMarks (t : Tree) : Edit → Prop
  | .declare _ _ onParent _ => onParent = false
  | .setProperty p name value =>
    (name = Field.onParent.name → value.asFlag? ≠ some true) ∧
      (name = Field.source.name → Declaration.marker ∈ (t.found p).tags)
  | _ => True

instance (t : Tree) : DecidablePred (Edit.KeepsMarks t)
  | .declare _ _ onParent _ => inferInstanceAs (Decidable (onParent = false))
  | .setProperty p name value => inferInstanceAs (Decidable
    ((name = Field.onParent.name → value.asFlag? ≠ some true) ∧
      (name = Field.source.name → Declaration.marker ∈ (t.found p).tags)))
  | .addNode _ | .removeProperty _ _ | .addTag _ _ | .removeNode _ | .moveNode _ _ => isTrue trivial

namespace Tree

variable {t : Tree}

/-- Whatever carries anything stands in normal form at or below `watched`, asks for its own path and
has a source only beside the marker. -/
def Marked (watched : Path) (t : Tree) : Prop := t.All fun p node =>
  node = .bare ∨ (p.isNormal = true ∧ p.isWithin watched = true) ∧ node.Marked

/-- The edits are made at or below `watched`, and each keeps the marks where it comes to be made. -/
def Admits (watched : Path) (t : Tree) : List Edit → Prop
  | [] => True
  | e :: edits => (e.IsPlain ∧ e.path.isWithin watched = true ∧ e.KeepsMarks t) ∧
      (t.edit e).tree.Admits watched edits

instance decidableAdmits (watched : Path) :
    (t : Tree) → (edits : List Edit) → Decidable (t.Admits watched edits)
  | _, [] => isTrue trivial
  | t, e :: edits =>
    have := decidableAdmits watched (t.edit e).tree edits
    inferInstanceAs (Decidable ((e.IsPlain ∧ e.path.isWithin watched = true ∧ e.KeepsMarks t) ∧
      (t.edit e).tree.Admits watched edits))

theorem Marked.regular (h : t.Marked watched) : t.Regular := fun p node hnode =>
  (h p node hnode).imp_right fun hmarked => hmarked.1.1

theorem Marked.noneOnParent (h : t.Marked watched) : t.NoneOnParent := by
  intro p node hnode
  rcases h p node hnode with rfl | ⟨-, hmarked⟩
  · rfl
  · exact hmarked.own

theorem Marked.found (h : t.Marked watched) (p : Path) : (t.found p).Marked := by
  rcases All.found h (fun _ => Or.inl rfl) p with hbare | ⟨-, hmarked⟩
  · rw [hbare]
    exact Node.marked_bare
  · exact hmarked

theorem Marked.edit (h : t.Marked watched) {e : Edit} (hplain : e.IsPlain)
    (hpath : e.path.isWithin watched = true) (hkeeps : e.KeepsMarks t) :
    (t.edit e).tree.Marked watched := by
  have hbare : ∀ q : Path, Node.bare = .bare ∨
      (q.isNormal = true ∧ q.isWithin watched = true) ∧ Node.bare.Marked := fun _ => Or.inl rfl
  have htag : ∀ {u : Tree} {p : Path} (tag : String), p.isNormal = true →
      p.isWithin watched = true → u.Marked watched → (u.putTag p tag).tree.Marked watched :=
    fun {u p} tag hp hwithin hu =>
      All.step hu hbare (s := .tag p tag) (Or.inr ⟨⟨hp, hwithin⟩, (hu.found p).tagged tag⟩)
  have hput : ∀ {u : Tree} {p : Path} {name : String} {value : Value}, p.isNormal = true →
      p.isWithin watched = true → u.Marked watched →
      (name = Field.onParent.name → value.asFlag? ≠ some true) →
      (name = Field.source.name → Declaration.marker ∈ (u.found p).tags) →
      (u.putProperty p name value).tree.Marked watched :=
    fun {u p name value} hp hwithin hu hflag hsource =>
      All.step hu hbare (s := .put p name value)
        (Or.inr ⟨⟨hp, hwithin⟩, (hu.found p).put hflag hsource⟩)
  cases e with
  | addNode p =>
    rw [Tree.edit, withNormal, Path.isNormal_iff.1 hplain]
    exact All.create h hbare p
  | declare p source onParent overlayable =>
    obtain rfl : onParent = false := hkeeps
    simp only [Tree.edit, withNormal, Path.isNormal_iff.1 hplain]
    have htagged := htag Declaration.marker hplain hpath (All.create h hbare p)
    -- the source is set right after the tag
    have hmarker : Declaration.marker ∈
        (((t.create p).tree.putTag p Declaration.marker).tree.found p).tags := by
      rw [Tree.found, get?_putTag, if_pos rfl]
      exact List.mem_insert_self
    have hsource : (Tree.putProperty _ p Field.source.name (.text source)).tree.Marked watched :=
      hput hplain hpath htagged (fun h => absurd h (by decide)) fun _ => hmarker
    cases overlayable with
    | false => exact hsource
    | true =>
      have hflag : (Tree.putProperty _ p Field.overlayable.name (.flag true)).tree.Marked watched :=
        hput hplain hpath hsource (fun h => absurd h (by decide)) fun h => absurd h (by decide)
      exact hflag
  | setProperty p name value =>
    rw [Tree.edit, withNormal, Path.isNormal_iff.1 hplain.1]
    exact hput hplain.1 hpath h hkeeps.1 hkeeps.2
  | removeProperty p name =>
    rw [Tree.edit, withNormal, Path.isNormal_iff.1 hplain.1]
    refine All.step h hbare (s := .unset p name) fun node hnode => ?_
    have hfound := h.found p
    rw [Tree.found, hnode] at hfound
    exact Or.inr ⟨⟨hplain.1, hpath⟩, hfound.dropped name⟩
  | addTag p tag =>
    rw [Tree.edit, withNormal, Path.isNormal_iff.1 hplain]
    exact htag tag hplain hpath h
  | removeNode p =>
    rw [Tree.edit, withNormal, Path.isNormal_iff.1 hplain]
    exact All.step h hbare (s := .drop p) trivial
  | moveNode p goal => exact hplain.elim

theorem Admits.plain {edits : List Edit} (h : t.Admits watched edits) :
    ∀ e ∈ edits, e.IsPlain ∧ e.path.isWithin watched = true := by
  induction edits generalizing t with
  | nil => exact fun _ he => absurd he List.not_mem_nil
  | cons e edits ih => exact List.forall_mem_cons.2 ⟨⟨h.1.1, h.1.2.1⟩, ih h.2⟩

theorem Marked.transact (h : t.Marked watched) {edits : List Edit}
    (hedits : t.Admits watched edits) : (t.transact edits).tree.Marked watched := by
  induction edits generalizing t with
  | nil => exact h
  | cons e edits ih =>
    rw [transact_cons]
    exact ih (h.edit hedits.1.1 hedits.1.2.1 hedits.1.2.2) hedits.2

end Tree

end Graft
