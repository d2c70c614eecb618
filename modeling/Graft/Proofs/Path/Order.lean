import Graft.Proofs.Path.Normal

/-!
# The tree of paths

Containment orders all texts. A text can lie within two others of which neither lies within the
other: `/a//b` lies within `/a` and within `/a/`, since nothing follows the separator that `/a/`
ends in. Paths in normal form end in a segment, and so those that contain a path form a chain.

The chain is what `ancestors` lists. For every text it goes on from each path to its parent and ends
where there is none; for a path in normal form it holds every nonempty path that contains it, and
nothing else (`mem_ancestors_iff_isWithin`).
-/

namespace Graft.Path

variable {p q a : Path}

/-! ## Containment as an order -/

theorem isWithin_refl (p : Path) : p.isWithin p = true :=
  isWithin_iff.2 (Or.inl rfl)

theorem length_le_of_isWithin (h : p.isWithin q = true) : q.chars.length ≤ p.chars.length := by
  obtain ⟨rest, hrest⟩ := chars_of_isWithin h
  rw [hrest, List.length_append]
  exact Nat.le_add_right _ _

/-- Paths that contain each other cover each other, at the same length. -/
theorem isWithin_antisymm (hpq : p.isWithin q = true) (hqp : q.isWithin p = true) : p = q := by
  have hlength := Nat.le_antisymm (length_le_of_isWithin hqp) (length_le_of_isWithin hpq)
  have hself : p.Covers p := Or.inl rfl
  exact hself.eq_of_length_eq (isWithin_iff_covers.1 hpq).1 hlength

/-! ## The way up, step by step -/

theorem above_of_parent_eq_none (h : p.parent = none) : p.above = [] :=
  List.head?_eq_none_iff.1 h

/-- Each path on the way up is the parent of the one before it, and where there is no parent the way
ends. -/
theorem getElem?_ancestors_succ (p : Path) (n : Nat) :
    p.ancestors[n + 1]? = p.ancestors[n]?.bind parent := by
  induction n generalizing p with
  | zero =>
    rw [ancestors, List.getElem?_cons_succ, List.getElem?_cons_zero, ← List.head?_eq_getElem?]
    rfl
  | succ n ih =>
    rw [ancestors, List.getElem?_cons_succ, List.getElem?_cons_succ]
    cases hup : p.parent with
    | none => rw [above_of_parent_eq_none hup]; rfl
    | some up =>
      rw [above_of_parent hup]
      exact ih up

theorem ancestors_nodup (p : Path) : p.ancestors.Nodup := by
  apply p.ancestors_sorted.imp
  rintro a b hlt rfl
  exact Nat.lt_irrefl _ hlt

/-- A path that ends in a segment lies within whatever covers it. -/
theorem IsTidy.mem_ancestors_iff_isWithin (h : p.IsTidy) :
    a ∈ p.ancestors ↔ a.chars ≠ [] ∧ p.isWithin a = true := by
  rw [isWithin_iff_covers, and_iff_left (h.chars_ne_append_separator _)]
  constructor
  · intro hmem
    have hne : a.chars ≠ [] := by
      rcases List.mem_cons.1 hmem with rfl | habove
      · exact chars_ne_nil_of_isTidy h
      · exact (mem_above_iff.1 habove).1
    exact ⟨hne, (mem_ancestors_iff hne).1 hmem⟩
  · rintro ⟨hne, hcovers⟩
    exact (mem_ancestors_iff hne).2 hcovers

/-! ## The tree -/

/-- Containment is an order, in which the paths in normal form that contain one path form a chain.
The way up from any text leads from parent to parent, to ever shorter paths, and ends; from a path
in normal form it leads through exactly the nonempty paths that contain it. What is put below a path
is found below it, whatever the two texts are, and the parent and the name of what is made of a path
and one segment are this path and this segment. -/
theorem paths_form_a_tree :
    (∀ p : Path, p.isWithin p = true) ∧
    (∀ p q : Path, p.isWithin q = true → q.isWithin p = true → p = q) ∧
    (∀ p q r : Path, p.isWithin q = true → q.isWithin r = true → p.isWithin r = true) ∧
    (∀ p a b : Path, a.isNormal = true → b.isNormal = true → p.isWithin a = true →
      p.isWithin b = true → b.isWithin a = true ∨ a.isWithin b = true) ∧
    (∀ p : Path, p.ancestors[0]? = some p ∧
      (∀ n, p.ancestors[n + 1]? = p.ancestors[n]?.bind parent) ∧
      p.ancestors.Pairwise (fun a b => b.chars.length < a.chars.length) ∧ p.ancestors.Nodup) ∧
    (∀ p : Path, p.isNormal = true → ∀ a : Path,
      a ∈ p.ancestors ↔ a.chars ≠ [] ∧ p.isWithin a = true) ∧
    (∀ (a : Path) (s : String), s ≠ "" → (a.child s).below? a = some s) ∧
    (∀ (p a : Path) (s : String), p.below? a = some s → a.child s = p) ∧
    ∀ (a : Path) (s : String), a.chars ≠ [] → '/' ∉ s.toList →
      (a.child s).parent = some a ∧ (a.child s).name = s := by
  refine ⟨isWithin_refl, fun p q => isWithin_antisymm, fun p q r => isWithin_trans, ?_, ?_, ?_, ?_,
    ?_, ?_⟩
  · intro p a b ha hb
    exact isWithin_or_isWithin (isTidy_of_isNormal ha) (isTidy_of_isNormal hb)
  · exact fun p => ⟨rfl, p.getElem?_ancestors_succ, p.ancestors_sorted, p.ancestors_nodup⟩
  · intro p hp a
    exact (isTidy_of_isNormal hp).mem_ancestors_iff_isWithin
  · intro a s hs
    exact below?_eq_some_iff.2 ⟨hs, rfl⟩
  · intro p a s h
    exact (below?_eq_some_iff.1 h).2.symm
  · intro a s ha hs
    exact ⟨parent_child ha hs, name_child hs⟩

/-- What stands above a path is one branch, and a name that begins like a segment is not on it. -/
theorem paths_form_a_tree_branch :
    let a := ofString "/a"
    let b := ofString "/a/b b"
    let p := ofString "/a/b b/c"
    a.isNormal = true ∧ b.isNormal = true ∧ p.isNormal = true ∧ p.isWithin a = true ∧
    p.isWithin b = true ∧ (b.isWithin a = true ∨ a.isWithin b = true) ∧ b ∈ p.ancestors ∧
    ofString "/a/b" ∉ p.ancestors ∧ b.chars ≠ [] ∧ '/' ∉ "c".toList ∧
    p.parent = some b ∧ p.name = "c" := by
  intro a b p
  obtain ⟨-, -, -, hchain, -, hlisted, -, -, hmade⟩ := paths_form_a_tree
  have ha : a.isNormal = true := by decide
  have hb : b.isNormal = true := by decide
  have hp : p.isNormal = true := by decide
  have hpa : p.isWithin a = true := by decide
  have hpb : p.isWithin b = true := by decide
  have hne : b.chars ≠ [] := by decide
  have hsegment : '/' ∉ "c".toList := by decide
  obtain ⟨hparent, hname⟩ := hmade b "c" hne hsegment
  refine ⟨ha, hb, hp, hpa, hpb, hchain p a b ha hb hpa hpb, (hlisted p hp b).2 ⟨hne, hpb⟩,
    fun hmem => ?_, hne, hsegment, hparent, hname⟩
  have hwithin := ((hlisted p hp _).1 hmem).2
  revert hwithin
  decide

/-- Without normal form there is more than one branch. -/
example : (ofString "/a//b").isWithin (ofString "/a") = true ∧
    (ofString "/a//b").isWithin (ofString "/a/") = true ∧
    (ofString "/a/").isWithin (ofString "/a") = false ∧
    (ofString "/a").isWithin (ofString "/a/") = false := by
  decide

end Graft.Path
