import Graft.Proofs.Mapping.Inverse
import Graft.Proofs.Tree.WellFormed

/-!
# Where everything is after a move

After a move in a well-formed tree it is settled key by key what stands where (`get?_move`). What
is carried to a key counts first, whatever stood there before. Otherwise the subtree leaves nothing
behind, all else stays as it is, and what is missing above the goal is filled in with bare nodes.
The goal may lie above the subtree, and nodes may come to stand where the subtree was.

Creation stops at the first node on the way up, so it fills in all that is missing only where the
nodes above a node are there (`missing_eq`). Nothing above the goal is in the subtree, so what is
missing there was missing before the move (`changes_move`).
-/

namespace Graft.Tree

variable {t : Tree} {p goal q k a : Path}

/-- What stands at `k` once the subtree of `p` is moved to `goal`. -/
def relocated (t : Tree) (p goal k : Path) : Option Node :=
  match (Mapping.counterpart? goal p k).bind t.get? with
  | some node => some node
  | none =>
    if k.isWithin p then none
    else if t.contains k then t.get? k
    else if k ∈ goal.above then some .bare
    else none

/-- A node is carried to `k` from the place that corresponds to `k`. -/
theorem counterpart?_eq_some_iff_moved : Mapping.counterpart? goal p k = some q ↔
    q.isWithin p = true ∧ moved p goal q = k := by
  rw [Mapping.counterpart?_eq_some_iff, Path.isWithin_iff]
  constructor
  · rintro (⟨rfl, rfl⟩ | ⟨s, hs, rfl, rfl⟩)
    · exact ⟨Or.inl rfl, moved_self q k⟩
    · exact ⟨Or.inr ⟨s, hs, rfl⟩, moved_child p goal hs⟩
  · rintro ⟨rfl | ⟨s, hs, rfl⟩, rfl⟩
    · exact Or.inl ⟨moved_self q goal, rfl⟩
    · exact Or.inr ⟨s, hs, moved_child p goal hs, rfl⟩

/-- What is above the goal is not in the subtree. -/
theorem not_isWithin_of_above (hgoal : goal.IsTidy) (hout : goal.isWithin p = false)
    (ha : a ∈ goal.above) : ¬ a.isWithin p = true := by
  intro hin
  have hgoalin := Path.isWithin_trans (hgoal.isWithin_above ha) hin
  rw [hout] at hgoalin
  cases hgoalin

namespace WellFormed

/-- There is something to move exactly if there is a node at the path. -/
theorem subtree_isEmpty (h : t.WellFormed) (hp : p.chars ≠ []) :
    (t.subtree p).isEmpty = !t.contains p := by
  cases hc : t.contains p with
  | false =>
    apply subtree_isEmpty_iff.2
    intro q hq
    by_contra hthere
    have hq' : t.contains q = true := Option.isSome_iff_ne_none.2 hthere
    rw [h.contains_of_isWithin hq' hp hq] at hc
    cases hc
  | true =>
    rw [Bool.not_true, ← Bool.not_eq_true]
    intro hempty
    have hnone := subtree_isEmpty_iff.1 hempty p (Path.isWithin_iff.2 (Or.inl rfl))
    rw [Table.contains, hnone] at hc
    cases hc

theorem missing_eq (h : t.WellFormed) (p : Path) :
    t.missing p = p.ancestors.filter (!t.contains ·) := by
  induction p using Path.parent_induction with
  | h p ih =>
    rw [missing, Path.ancestors, List.takeWhile_cons, List.filter_cons]
    cases hp : t.contains p with
    | true =>
      have hnone : p.above.filter (!t.contains ·) = [] := by
        rw [List.filter_eq_nil_iff]
        intro a ha
        rw [h.above hp a ha]
        exact Bool.false_ne_true
      rw [hnone]
      rfl
    | false =>
      cases hup : p.parent with
      | none =>
        have habove : p.above = [] := List.head?_eq_none_iff.1 hup
        rw [habove]
        rfl
      | some up =>
        have habove : p.above = up.ancestors := Path.above_of_parent hup
        rw [habove]
        exact congrArg (p :: ·) (ih up hup)

section

variable (h : t.WellFormed) (hgoal : goal.IsTidy) (hout : goal.isWithin p = false)

include h hgoal hout

/-- What is missing above the goal when the subtree is out was missing before. -/
theorem missing_prune {up : Path} (hup : goal.parent = some up) :
    (t.prune p).missing up = goal.above.filter (!t.contains ·) := by
  have habove : goal.above = up.ancestors := Path.above_of_parent hup
  rw [(h.prune p).missing_eq, ← habove]
  apply List.filter_congr
  intro a ha
  rw [Table.contains, get?_prune, if_neg (not_isWithin_of_above hgoal hout ha), Table.contains]

theorem get?_cleared (k : Path) : (t.cleared p goal).get? k =
    if k.isWithin p then none
    else if t.contains k then t.get? k
    else if k ∈ goal.above then some .bare
    else none := by
  have hfilled : (t.cleared p goal).get? k =
      if k ∈ goal.above ∧ t.contains k = false then some .bare else (t.prune p).get? k := by
    unfold Tree.cleared
    cases hup : goal.parent with
    | none =>
      have habove : goal.above = [] := List.head?_eq_none_iff.1 hup
      simp [habove]
    | some up =>
      dsimp only
      rw [get?_create, h.missing_prune hgoal hout hup]
      simp only [List.mem_filter, Bool.not_eq_true']
  rw [hfilled, get?_prune]
  by_cases hin : k.isWithin p = true
  · have hk : ¬ k ∈ goal.above := fun hk => not_isWithin_of_above hgoal hout hk hin
    simp only [hin, hk, if_true, false_and, if_false]
  · cases hc : t.contains k with
    | true => simp [hin]
    | false =>
      have hnone : t.get? k = none := by simpa [Table.contains] using hc
      simp [hin, hnone]

variable (hsome : (t.subtree p).isEmpty = false)

include hsome

theorem get?_move (k : Path) : (t.move p goal).tree.get? k = t.relocated p goal k := by
  unfold relocated
  split
  · next node hcarried =>
    obtain ⟨q, hq, hnode⟩ := Option.bind_eq_some_iff.1 hcarried
    obtain ⟨hwithin, rfl⟩ := counterpart?_eq_some_iff_moved.1 hq
    have hmem : (q, node) ∈ t.subtree p :=
      mem_subtree_iff.2 ⟨Table.get?_eq_some_iff.1 hnode, hwithin⟩
    exact get?_move_moved hout hsome hmem
  · next hnone =>
    have hunmoved : ∀ e ∈ t.subtree p, moved p goal e.1 ≠ k := by
      intro e he heq
      obtain ⟨hentry, hwithin⟩ := mem_subtree_iff.1 he
      have hfrom := counterpart?_eq_some_iff_moved.2 ⟨hwithin, heq⟩
      rw [hfrom, Option.bind_some, Table.get?_eq_some_iff.2 hentry] at hnone
      cases hnone
    rw [move_tree hout hsome, get?_place_of_not_mem hunmoved]
    exact h.get?_cleared hgoal hout k

/-- The subtree goes, then comes what is missing above the goal, from the top down, and then the
goal. -/
theorem changes_move : (t.move p goal).changes =
    .removed p :: ((goal.above.filter (!t.contains ·)).reverse ++ [goal]).map .added := by
  rw [Tree.move, if_neg (by simp [hout, hsome])]
  cases hup : goal.parent with
  | none =>
    have habove : goal.above = [] := List.head?_eq_none_iff.1 hup
    rw [habove]
    rfl
  | some up =>
    rw [← h.missing_prune hgoal hout hup, List.map_append]
    rfl

end

end WellFormed

/-- Take a tree after any transactions and move `p` to `goal`, each written in any form. If the goal
is at or below `p`, or there is no node at `p`, then nothing happens and nothing is told. Else it is
known of every key what stands there: the nodes at and below `p` stand at and below the goal with
their tags and properties, whatever stood there before; where they were there is nothing but what
has been carried there; all other nodes are as they were; and new ones, which are bare, stand above
the goal where there were none, and nowhere else. Told are the removal of `p`, the new nodes from
the top down, and the goal. -/
theorem move_lossless (transactions : List (List Edit)) {origin target : Path}
    (hp : origin.normalize? = some p) (hgoal : target.normalize? = some goal) :
    let t := after transactions
    let revision := t.edit (.moveNode origin target)
    (goal.isWithin p = true ∨ t.contains p = false →
      revision.tree = t ∧ revision.changes = []) ∧
    (goal.isWithin p = false → t.contains p = true →
      (∀ k, revision.tree.get? k = t.relocated p goal k) ∧
      revision.changes =
        .removed p :: ((goal.above.filter (!t.contains ·)).reverse ++ [goal]).map .added) := by
  intro t revision
  have h : t.WellFormed := wellFormed_after transactions
  have hnormal : (Edit.moveNode origin target).normalize? = some (.moveNode p goal) := by
    rw [Edit.normalize?, hp, Option.bind_some, hgoal, Option.map_some]
  obtain ⟨hptidy, hgoaltidy, hmove⟩ := edit_eq_move_of_normalize? hnormal t
  have hempty := h.subtree_isEmpty (Path.chars_ne_nil_of_isTidy hptidy)
  rw [show revision = t.move p goal from hmove]
  constructor
  · intro hstay
    have hstay' : goal.isWithin p = true ∨ (t.subtree p).isEmpty = true := by
      rw [hempty, Bool.not_eq_true']
      exact hstay
    rw [move_of_stay hstay']
    exact ⟨rfl, rfl⟩
  · intro hout hthere
    have hsome : (t.subtree p).isEmpty = false := by
      rw [hempty, hthere]
      rfl
    exact ⟨h.get?_move hgoaltidy hout hsome, h.changes_move hgoaltidy hout hsome⟩

/-- A declaring node is moved onto its own parent, and a node below it comes to stand where it was
itself. Beside them `/a/x y` sorts between the node and what is below it. The same node is moved to
a place above which there is one node only. -/
theorem move_lossless_upward :
    let transactions := [[.declare (.ofString "/a/x") "/s" false true,
      .addTag (.ofString "/a/x/x") "inner", .addNode (.ofString "/a/x y"),
      .addNode (.ofString "/a/x/z")],
      [.setProperty (.ofString "/a/z") "k" (.flag true), .addNode (.ofString "/c")]]
    let t := after transactions
    let up := t.edit (.moveNode (.ofString " /a//x/") (.ofString "/a"))
    let away := t.edit (.moveNode (.ofString "/a/x") (.ofString "/c/d/e/"))
    up.tree.get? (.ofString "/a") = t.get? (.ofString "/a/x") ∧
      up.tree.get? (.ofString "/a/x") = some ⟨["inner"], .empty⟩ ∧
      up.tree.get? (.ofString "/a/x/x") = none ∧
      up.tree.get? (.ofString "/a/x y") = some .bare ∧
      up.tree.get? (.ofString "/a/z") = some .bare ∧
      up.changes = [.removed (.ofString "/a/x"), .added (.ofString "/a")] ∧
      away.tree.get? (.ofString "/c/d/e") = t.get? (.ofString "/a/x") ∧
      away.changes = .removed (.ofString "/a/x") ::
        (["/c/d", "/c/d/e"].map .ofString).map .added := by
  intro transactions t up away
  have hx : (Path.ofString " /a//x/").normalize? = some (.ofString "/a/x") := by decide
  have hx' : (Path.ofString "/a/x").normalize? = some (.ofString "/a/x") := by decide
  have ha : (Path.ofString "/a").normalize? = some (.ofString "/a") := by decide
  have he : (Path.ofString "/c/d/e/").normalize? = some (.ofString "/c/d/e") := by decide
  obtain ⟨-, hup⟩ := move_lossless transactions hx ha
  obtain ⟨hkey, htold⟩ := hup (by decide) (by decide)
  obtain ⟨-, haway⟩ := move_lossless transactions hx' he
  obtain ⟨hkey', htold'⟩ := haway (by decide) (by decide)
  exact ⟨(hkey _).trans (by decide), (hkey _).trans (by decide), (hkey _).trans (by decide),
    (hkey _).trans (by decide), (hkey _).trans (by decide), htold.trans (by decide),
    (hkey' _).trans (by decide), htold'.trans (by decide)⟩

end Graft.Tree
