import Graft.Proofs.Path.Tidy
import Graft.Proofs.Tree.Move

/-!
# Well-formed trees

Every node of a tree stands at a tidy path, and above it there are nodes all the way up. No edit
breaks this, whatever texts it is given (`WellFormed.edit`), so it holds after any transactions
(`after_tidy_and_closed`).

Creation goes up only as far as the first node that is there (`create_eq`), and a removal takes what
is below the path and nothing else. It is the invariant itself that makes both of them enough. A move
may put a subtree over an ancestor of its own or over nodes that stand at its new place; the nodes
above the goal are created, and those inside the subtree are moved with it (`parent_moved`).
-/

namespace Graft

namespace Tree

variable {t : Tree} {p q up goal k : Path}

/-- Every node stands at a tidy path, and the parent of a node is a node. -/
structure WellFormed (t : Tree) : Prop where
  tidy : ∀ {p}, t.contains p = true → p.IsTidy
  closed : ∀ {p up}, t.contains p = true → p.parent = some up → t.contains up = true

def after (transactions : List (List Edit)) : Tree :=
  transactions.foldl (fun t edits => (t.transact edits).tree) .empty

/-! ## Creation, level by level -/

/-- A missing node is created after its parent. -/
theorem create_eq (t : Tree) (p : Path) : t.create p =
    if t.contains p then t.unchanged
    else (match p.parent with
      | some up => t.create up
      | none => t.unchanged).andThen fun u => ⟨u.insert p .bare, [.added p]⟩ := by
  rw [create, Path.ancestors, List.takeWhile_cons]
  cases hp : t.contains p with
  | true => rfl
  | false =>
    cases hup : p.parent with
    | none =>
      have habove : p.above = [] := List.head?_eq_none_iff.1 hup
      rw [habove]
      rfl
    | some up =>
      have habove : p.above = up.ancestors := Path.above_of_parent hup
      rw [habove]
      simp [create, Revision.andThen]

/-! ## Steps keep trees well-formed -/

namespace WellFormed

theorem empty : Tree.WellFormed .empty where
  tidy h := nomatch h
  closed h := nomatch h

/-- With a node there are all nodes above it. -/
theorem above (h : t.WellFormed) (hp : t.contains p = true) :
    ∀ a ∈ p.above, t.contains a = true := by
  induction p using Path.parent_induction with
  | h p ih =>
    cases hup : p.parent with
    | none =>
      have habove : p.above = [] := List.head?_eq_none_iff.1 hup
      rw [habove]
      exact fun a ha => absurd ha List.not_mem_nil
    | some up =>
      have hthere := h.closed hp hup
      rw [Path.above_of_parent hup, List.forall_mem_cons]
      exact ⟨hthere, ih up hup hthere⟩

theorem contains_of_isWithin (h : t.WellFormed) (hq : t.contains q = true) (hp : p.chars ≠ [])
    (hwithin : q.isWithin p = true) : t.contains p = true := by
  rcases Path.isWithin_iff.1 hwithin with rfl | ⟨s, -, rfl⟩
  · exact hq
  · apply h.above hq
    refine Path.mem_above_iff.2 ⟨hp, s.toList, ?_⟩
    rw [List.append_assoc]
    rfl

theorem insert (h : t.WellFormed) (hp : p.IsTidy)
    (hup : ∀ up, p.parent = some up → t.contains up = true) (node : Node) :
    Tree.WellFormed (t.insert p node) where
  tidy {q} hq := by
    rcases Table.contains_insert.1 hq with rfl | hq
    · exact hp
    · exact h.tidy hq
  closed {q up} hq hparent := by
    apply Table.contains_insert.2
    rcases Table.contains_insert.1 hq with rfl | hq
    · exact Or.inr (hup up hparent)
    · exact Or.inr (h.closed hq hparent)

theorem replace (h : t.WellFormed) (hp : t.contains p = true) (node : Node) :
    Tree.WellFormed (t.insert p node) :=
  h.insert (h.tidy hp) (fun _ hup => h.closed hp hup) node

/-- Nothing is left of a subtree, so nothing is left without a parent. -/
theorem prune (h : t.WellFormed) (p : Path) : (t.prune p).WellFormed where
  tidy hq := h.tidy (contains_prune.1 hq).1
  closed hq hup := by
    obtain ⟨hthere, hout⟩ := contains_prune.1 hq
    refine contains_prune.2 ⟨h.closed hthere hup, fun hin => hout ?_⟩
    exact Path.isWithin_trans ((h.tidy hthere).isWithin_parent hup) hin

theorem create (h : t.WellFormed) (hp : p.IsTidy) : (t.create p).tree.WellFormed := by
  induction p using Path.parent_induction with
  | h p ih =>
    rw [create_eq]
    split
    · exact h
    split
    · next up hup =>
      apply (ih up hup (hp.parent hup)).insert hp
      intro up' hup'
      obtain rfl := Option.some.inj (hup.symm.trans hup')
      exact contains_create_self t up
    · next htop =>
      apply h.insert hp
      rw [htop]
      rintro up ⟨⟩

theorem step (h : t.WellFormed) {s : Step} (hs : s.path.IsTidy) : (t.step s).tree.WellFormed := by
  cases s with
  | create p => exact h.create hs
  | tag p tag => exact (h.create hs).replace (contains_create_self t p) _
  | put p name value => exact (h.create hs).replace (contains_create_self t p) _
  | unset p name =>
    rw [Tree.step, dropProperty]
    split
    · exact h
    next node hnode =>
    split
    · exact h.replace (Option.isSome_of_mem hnode) _
    · exact h
  | drop p =>
    rw [Tree.step, drop]
    split
    · exact h
    · exact h.prune p

theorem run (h : t.WellFormed) {steps : List Step} (hsteps : ∀ s ∈ steps, s.path.IsTidy) :
    (t.run steps).tree.WellFormed := by
  induction steps generalizing t with
  | nil => exact h
  | cons s steps ih =>
    rw [List.forall_mem_cons] at hsteps
    exact ih (h.step hsteps.1) hsteps.2

/-! ## Moves keep trees well-formed -/

theorem cleared (h : t.WellFormed) (p : Path) (hgoal : goal.IsTidy) :
    (t.cleared p goal).WellFormed := by
  unfold Tree.cleared
  split
  · next up hup => exact (h.prune p).create (hgoal.parent hup)
  · exact h.prune p

theorem move (h : t.WellFormed) (hp : p.IsTidy) (hgoal : goal.IsTidy) :
    (t.move p goal).tree.WellFormed := by
  by_cases hstay : goal.isWithin p = true ∨ (t.subtree p).isEmpty = true
  · rw [move_of_stay hstay]
    exact h
  rw [not_or, Bool.not_eq_true, Bool.not_eq_true] at hstay
  have hcleared := h.cleared p hgoal
  have hnodes := fun k => contains_move_iff (k := k) hstay.1 hstay.2
  constructor
  · intro k hk
    rcases (hnodes k).1 hk with ⟨q, hq, hwithin, rfl⟩ | hk
    · exact isTidy_moved hp hgoal hwithin (h.tidy hq)
    · exact hcleared.tidy hk
  · intro k up hk hup
    rcases (hnodes k).1 hk with ⟨q, hq, hwithin, rfl⟩ | hk
    · rcases Path.isWithin_iff.1 hwithin with rfl | ⟨s, hs, rfl⟩
      -- the top of the subtree stands below what was created for it
      · rw [moved_self] at hup
        exact (hnodes up).2 (Or.inr (contains_cleared_of_parent t _ hup))
      · obtain ⟨up', hup', hwithin', hmoved⟩ := parent_moved (Path.chars_ne_nil_of_isTidy hp)
          (Path.chars_ne_nil_of_isTidy hgoal) (h.tidy hq)
        rw [moved_child p goal hs, hmoved] at hup
        exact (hnodes up).2 (Or.inl ⟨up', h.closed hq hup', hwithin', Option.some.inj hup⟩)
    · exact (hnodes up).2 (Or.inr (hcleared.closed hk hup))

/-! ## Edits and transactions -/

theorem edit (h : t.WellFormed) (e : Edit) : (t.edit e).tree.WellFormed := by
  cases he : e.normalize? with
  | none =>
    rw [edit_of_normalize?_eq_none he]
    exact h
  | some e' =>
    cases hmoves : e'.moves with
    | false =>
      rw [edit_eq_run_of_normalize? he hmoves]
      apply h.run
      intro s hs
      rw [Edit.path_of_mem_steps hs]
      exact Edit.isTidy_path he
    | true =>
      obtain ⟨p, goal, rfl⟩ := Edit.eq_moveNode hmoves
      obtain ⟨hp, hgoal, hmove⟩ := edit_eq_move_of_normalize? he t
      rw [hmove]
      exact h.move hp hgoal

theorem transact (h : t.WellFormed) (edits : List Edit) : (t.transact edits).tree.WellFormed := by
  induction edits generalizing t with
  | nil => exact h
  | cons e edits ih =>
    rw [transact_cons]
    exact ih (h.edit e)

end WellFormed

theorem wellFormed_after (transactions : List (List Edit)) : (after transactions).WellFormed :=
  List.foldlRecOn transactions _ WellFormed.empty fun _ h edits _ => h.transact edits

/-- After any edits, with any texts for paths, alone or in transactions, the keys of a tree begin with
a separator, do not end in one and are made of segments, none of which is empty or stands for a
place relative to another one; and with a key there is the parent's, if it has a parent. -/
theorem after_tidy_and_closed (transactions : List (List Edit)) :
    let t := after transactions
    (∀ p ∈ t.keys, p.chars.head? = some '/' ∧ p.chars.getLast? ≠ some '/' ∧
      ∃ ss : List (List Char), ss ≠ [] ∧
        (∀ s ∈ ss, s ≠ [] ∧ '/' ∉ s ∧ s ≠ ['.'] ∧ s ≠ ['.', '.']) ∧
        p.chars = ss.flatMap ('/' :: ·)) ∧
    ∀ p ∈ t.keys, ∀ up, p.parent = some up → up ∈ t.keys := by
  intro t
  have h : t.WellFormed := wellFormed_after transactions
  constructor
  · intro p hp
    have htidy := h.tidy (Table.contains_iff_mem_keys.2 hp)
    refine ⟨htidy.head, htidy.getLast_ne, ?_⟩
    obtain ⟨ss, hne, hss, rfl⟩ := htidy
    refine ⟨ss, hne, fun s hs => ?_, rfl⟩
    obtain ⟨hs', hsep, hdots⟩ := hss s hs
    simp only [Path.isDots, Bool.or_eq_false_iff, beq_eq_false_iff_ne] at hdots
    exact ⟨hs', hsep, hdots⟩
  · intro p hp up hup
    rw [← Table.contains_iff_mem_keys] at hp ⊢
    exact h.closed hp hup

end Tree

end Graft
