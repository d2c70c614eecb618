import Graft.Proofs.Path.Normal
import Graft.Proofs.Tree.Edits

/-!
# What a move does to the tree

A move takes out the subtree of a path, fills in what is missing above the goal and puts every node of
the subtree at its new place, over what stands there (`get?_move_moved`). Elsewhere nothing changes but
for the new nodes, which are bare (`get?_move_of_unmoved`). The goal may lie above the path; then
nodes come to stand where the subtree was.
-/

namespace Graft.Tree

variable {t u : Tree} {p goal q q' k : Path}

/-! ## New places -/

theorem moved_self (p goal : Path) : moved p goal p = goal := by
  have hnone : p.below? p = none := by
    cases hbelow : p.below? p with
    | none => rfl
    | some s => exact absurd (Path.below?_eq_some_iff.1 hbelow).2.symm (Path.child_ne_self p s)
  rw [moved, hnone]

theorem moved_child (p goal : Path) {s : String} (hs : s ≠ "") :
    moved p goal (p.child s) = goal.child s := by
  rw [moved, Path.below?_eq_some_iff.2 ⟨hs, rfl⟩]

theorem moved_isWithin (hq : q.isWithin p = true) : (moved p goal q).isWithin goal = true := by
  rcases Path.isWithin_iff.1 hq with rfl | ⟨s, hs, rfl⟩
  · rw [moved_self]
    exact Path.isWithin_iff.2 (Or.inl rfl)
  · rw [moved_child p goal hs]
    exact Path.isWithin_iff.2 (Or.inr ⟨s, hs, rfl⟩)

/-- A place is taken by one node only. -/
theorem moved_inj (hq : q.isWithin p = true) (hq' : q'.isWithin p = true)
    (h : moved p goal q = moved p goal q') : q = q' := by
  rcases Path.isWithin_iff.1 hq with rfl | ⟨s, hs, rfl⟩
  · rcases Path.isWithin_iff.1 hq' with rfl | ⟨s', hs', rfl⟩
    · rfl
    · rw [moved_self, moved_child _ _ hs'] at h
      exact absurd h.symm (Path.child_ne_self goal s')
  · rcases Path.isWithin_iff.1 hq' with rfl | ⟨s', hs', rfl⟩
    · rw [moved_self, moved_child _ _ hs] at h
      exact absurd h (Path.child_ne_self goal s)
    · rw [moved_child _ _ hs, moved_child _ _ hs'] at h
      have hsame : s = s' := by simpa [Path.child, String.toList_inj] using h
      rw [hsame]

theorem isNormal_moved (hp : p.isNormal = true) (hgoal : goal.isNormal = true)
    (hwithin : q.isWithin p = true) (hq : q.isNormal = true) :
    (moved p goal q).isNormal = true := by
  rcases Path.isWithin_iff.1 hwithin with rfl | ⟨s, hs, rfl⟩
  · rw [moved_self]
    exact hgoal
  · rw [moved_child p goal hs]
    exact Path.isNormal_child_of_child hs hp hgoal hq

theorem isTidy_moved (hp : p.IsTidy) (hgoal : goal.IsTidy) (hwithin : q.isWithin p = true)
    (hq : q.IsTidy) : (moved p goal q).IsTidy := by
  rcases Path.isWithin_iff.1 hwithin with rfl | ⟨s, hs, rfl⟩
  · rw [moved_self]
    exact hgoal
  · rw [moved_child p goal hs]
    exact Path.isTidy_child_of_child hp hgoal hq

/-- What is below the top of a subtree is moved together with its parent. -/
theorem parent_moved (hp : p.chars ≠ []) (hgoal : goal.chars ≠ []) {s : String}
    (hq : (p.child s).IsTidy) : ∃ up, (p.child s).parent = some up ∧ up.isWithin p = true ∧
      (goal.child s).parent = some (moved p goal up) := by
  by_cases hsep : '/' ∈ s.toList
  · obtain ⟨front, back, hsplit, hback⟩ := Path.exists_append_of_separator hsep
    have hchild : ∀ p : Path,
        p.child s = (p.child (String.ofList front)).child (String.ofList back) := by
      intro p
      simp [Path.child, hsplit]
    have hsep' : '/' ∉ (String.ofList back).toList := by simpa using hback
    have hparent : ∀ p : Path, (p.child s).parent = some (p.child (String.ofList front)) := by
      intro p
      rw [hchild]
      exact Path.parent_child (by simp [Path.child]) hsep'
    have hfront : String.ofList front ≠ "" := by
      intro hempty
      have htidy := hq.parent (hparent p)
      rw [hempty] at htidy
      exact htidy.chars_ne_append_separator p.chars rfl
    refine ⟨_, hparent p, Path.isWithin_iff.2 (Or.inr ⟨_, hfront, rfl⟩), ?_⟩
    rw [moved_child p goal hfront, hparent]
  · refine ⟨p, Path.parent_child hp hsep, Path.isWithin_iff.2 (Or.inl rfl), ?_⟩
    rw [moved_self, Path.parent_child hgoal hsep]

/-! ## Putting nodes at their places -/

section Place

variable {l : List (Path × Node)} {place : Path → Path}

theorem get?_place_of_not_mem (h : ∀ e ∈ l, place e.1 ≠ k) :
    (l.foldl (fun u e => u.insert (place e.1) e.2) u).get? k = u.get? k := by
  induction l generalizing u with
  | nil => rfl
  | cons x l ih =>
    rw [List.foldl_cons, ih fun e he => h e (List.mem_cons_of_mem x he), Table.get?_insert,
      if_neg (h x List.mem_cons_self).symm]

theorem get?_place_of_mem (hdistinct : (l.map (place ·.1)).Nodup) {e : Path × Node} (he : e ∈ l) :
    (l.foldl (fun u e => u.insert (place e.1) e.2) u).get? (place e.1) = some e.2 := by
  induction l generalizing u with
  | nil => exact absurd he List.not_mem_nil
  | cons x l ih =>
    rw [List.map_cons, List.nodup_cons] at hdistinct
    rw [List.foldl_cons]
    rcases List.mem_cons.1 he with rfl | he
    · rw [get?_place_of_not_mem, Table.get?_insert_self]
      intro y hy heq
      exact hdistinct.1 (heq ▸ List.mem_map_of_mem (f := fun e : Path × Node => place e.1) hy)
    · exact ih hdistinct.2 he

end Place

/-! ## The move -/

/-- The tree that the subtree is put back into. -/
def cleared (t : Tree) (p goal : Path) : Tree :=
  match goal.parent with
  | some up => ((t.prune p).create up).tree
  | none => t.prune p

/-- What is missing above the goal is filled in, and nothing else. -/
theorem get?_cleared (t : Tree) (p goal k : Path) :
    (t.cleared p goal).get? k = (t.prune p).get? k ∨
      ((t.cleared p goal).get? k = some .bare ∧ (t.prune p).get? k = none) := by
  unfold cleared
  split
  · next up _ =>
    rw [get?_create]
    split
    · next hk => exact Or.inr ⟨rfl, get?_eq_none_of_mem_missing hk⟩
    · exact Or.inl rfl
  · exact Or.inl rfl

theorem contains_cleared_of_parent (t : Tree) (p : Path) {up : Path} (hup : goal.parent = some up) :
    (t.cleared p goal).contains up = true := by
  rw [cleared, hup]
  dsimp only
  rw [Table.contains, get?_create_self]
  rfl

theorem move_of_stay (h : goal.isWithin p = true ∨ (t.subtree p).isEmpty = true) :
    t.move p goal = t.unchanged := by
  rw [move, if_pos (by simpa using h)]

section

variable (hgoal : goal.isWithin p = false) (hsome : (t.subtree p).isEmpty = false)

include hgoal hsome

theorem move_tree : (t.move p goal).tree =
    (t.subtree p).foldl (fun u e => u.insert (moved p goal e.1) e.2) (t.cleared p goal) := by
  rw [move, if_neg (by simp [hgoal, hsome]), cleared]
  cases goal.parent with
  | none => rfl
  | some up => rfl

/-- One removal and then additions, the last of which is the goal's. -/
theorem move_changes : ∃ created : List Path,
    (t.move p goal).changes = .removed p :: (created ++ [goal]).map .added := by
  rw [move, if_neg (by simp [hgoal, hsome])]
  cases goal.parent with
  | none => exact ⟨[], rfl⟩
  | some up =>
    refine ⟨(((t.prune p).missing up).reverse), ?_⟩
    rw [List.map_append]
    rfl

theorem get?_move_moved {e : Path × Node} (he : e ∈ t.subtree p) :
    (t.move p goal).tree.get? (moved p goal e.1) = some e.2 := by
  rw [move_tree hgoal hsome]
  apply get?_place_of_mem _ he
  rw [List.Nodup, List.pairwise_map]
  refine (t.subtree_sorted p).imp_of_mem ?_
  intro x y hx hy hlt heq
  have hsame := moved_inj (mem_subtree_iff.1 hx).2 (mem_subtree_iff.1 hy).2 heq
  rw [hsame] at hlt
  exact absurd hlt Std.lt_irrefl

theorem get?_move_of_unmoved (hk : ∀ e ∈ t.subtree p, moved p goal e.1 ≠ k) :
    (t.move p goal).tree.get? k = (t.prune p).get? k ∨
      ((t.move p goal).tree.get? k = some .bare ∧ (t.prune p).get? k = none) := by
  rw [move_tree hgoal hsome, get?_place_of_not_mem hk]
  exact get?_cleared t p goal k

/-- After a move there are the moved nodes and what was there without the subtree, filled in above
the goal. -/
theorem contains_move_iff : (t.move p goal).tree.contains k = true ↔
    (∃ q, t.contains q = true ∧ q.isWithin p = true ∧ moved p goal q = k) ∨
      (t.cleared p goal).contains k = true := by
  have hnodes : ∀ q, (∃ e ∈ t.subtree p, e.1 = q) ↔ t.contains q = true ∧ q.isWithin p = true := by
    intro q
    rw [Table.contains, Option.isSome_iff_exists]
    constructor
    · rintro ⟨e, he, rfl⟩
      obtain ⟨hentry, hwithin⟩ := mem_subtree_iff.1 he
      exact ⟨⟨e.2, Table.get?_eq_some_iff.2 hentry⟩, hwithin⟩
    · rintro ⟨⟨node, hnode⟩, hwithin⟩
      exact ⟨(q, node), mem_subtree_iff.2 ⟨Table.get?_eq_some_iff.1 hnode, hwithin⟩, rfl⟩
  by_cases hk : ∃ e ∈ t.subtree p, moved p goal e.1 = k
  · obtain ⟨e, he, rfl⟩ := hk
    obtain ⟨hthere, hwithin⟩ := (hnodes e.1).1 ⟨e, he, rfl⟩
    rw [Table.contains, get?_move_moved hgoal hsome he]
    exact iff_of_true rfl (Or.inl ⟨e.1, hthere, hwithin, rfl⟩)
  · have hunmoved : ∀ e ∈ t.subtree p, moved p goal e.1 ≠ k := fun e he heq => hk ⟨e, he, heq⟩
    rw [Table.contains, move_tree hgoal hsome, get?_place_of_not_mem hunmoved]
    refine ⟨Or.inr, fun h => h.resolve_left ?_⟩
    rintro ⟨q, hthere, hwithin, heq⟩
    obtain ⟨e, he, rfl⟩ := (hnodes q).2 ⟨hthere, hwithin⟩
    exact hk ⟨e, he, heq⟩

theorem field_move_of_unmoved (hk : ∀ e ∈ t.subtree p, moved p goal e.1 ≠ k) (f : Field) :
    (t.move p goal).tree.field k f = if k.isWithin p then none else t.field k f := by
  have hpruned : ((t.prune p).get? k).bind (·.field f) =
      if k.isWithin p then none else t.field k f := by
    rw [get?_prune]
    split
    · rfl
    · rfl
  rcases get?_move_of_unmoved hgoal hsome hk with h | ⟨h, hnone⟩
  · rw [Tree.field, h, hpruned]
  · rw [hnone] at hpruned
    rw [Tree.field, h, ← hpruned]
    rfl

/-- What holds of all nodes of the tree holds of all nodes after the move, if it goes with the nodes
that are moved and holds of bare ones. -/
theorem All.move {K : Path → Node → Prop} (h : t.All K) (hbare : ∀ q, K q .bare)
    (hmoved : ∀ e ∈ t.subtree p, K (moved p goal e.1) e.2) : (t.move p goal).tree.All K := by
  intro k node hnode
  by_cases hk : ∃ e ∈ t.subtree p, moved p goal e.1 = k
  · obtain ⟨e, he, rfl⟩ := hk
    rw [get?_move_moved hgoal hsome he] at hnode
    obtain rfl := Option.some.inj hnode
    exact hmoved e he
  · have hunmoved : ∀ e ∈ t.subtree p, moved p goal e.1 ≠ k := fun e he heq => hk ⟨e, he, heq⟩
    rcases get?_move_of_unmoved hgoal hsome hunmoved with hk | ⟨hk, -⟩
    · rw [hk, get?_prune] at hnode
      split at hnode
      · cases hnode
      · exact h k node hnode
    · rw [hk] at hnode
      obtain rfl := Option.some.inj hnode
      exact hbare k

end

theorem transact_move {origin target : Path} (hp : origin.normalize? = some p)
    (hgoal : target.normalize? = some goal) (t : Tree) :
    t.transact [.moveNode origin target] = t.move p goal := by
  show t.unchanged.andThen (·.edit (.moveNode origin target)) = _
  rw [Revision.unchanged_andThen, edit, withNormal, hp]
  simp only [withNormal, hgoal]

end Graft.Tree
