import Graft.Layer
import Graft.Proofs.Catalog.History
import Graft.Proofs.Path.Ancestors

/-!
# What the mapped layer shows

At every path at most one mapping has a say: the one with the longest root that covers the path
(`Catalog.Governs`). The mapped layer shows the node on the other side of this mapping, unless there
is none, or the mapping steps aside for a node that really exists; then the layer beneath answers.
This holds of every text that is asked for, in normal form or not, and whatever the layer beneath is.
-/

namespace Graft

/-! ## The mapping in charge -/

namespace Catalog

/-- `k` is active, and no active mapping with a longer root covers `p`. -/
structure Governs (c : Catalog) (p : Path) (k : Mapping) : Prop where
  active : c.lookup k.root = some k
  covers : k.root.Covers p
  longest : ∀ root, c.contains root = true → root.Covers p →
    root.chars.length ≤ k.root.chars.length

variable {c : Catalog} {p : Path} {k k' : Mapping}

theorem Governs.unique (h : c.Governs p k) (h' : c.Governs p k') : k = k' := by
  have hcontains : ∀ {k : Mapping}, c.lookup k.root = some k → c.contains k.root = true := by
    intro k hk
    rw [contains, Table.contains]
    exact Option.isSome_iff_exists.2 ⟨k, hk⟩
  have hle := h'.longest k.root (hcontains h.active) h.covers
  have hge := h.longest k'.root (hcontains h'.active) h'.covers
  have hroot := h.covers.eq_of_length_eq h'.covers (Nat.le_antisymm hle hge)
  have hactive := h.active
  rw [hroot, h'.active] at hactive
  exact (Option.some.inj hactive).symm

theorem chars_ne_nil_of_lookup (h : c.Consistent) {root : Path} (hk : c.lookup root = some k) :
    root.chars ≠ [] := by
  have hroot : k.root = root := h.visible_root_eq hk
  rw [← hroot]
  exact Path.chars_ne_nil_of_isTidy k.root_tidy

/-- The search along the way up finds the mapping in charge. -/
theorem covering_eq_some_iff (h : c.Consistent) : c.covering p = some k ↔ c.Governs p k := by
  have hfound : ∀ k, c.covering p = some k → c.Governs p k := by
    intro k hk
    obtain ⟨before, a, rest, hsplit, ha, hbefore⟩ := List.findSome?_eq_some_iff.1 hk
    obtain rfl : k.root = a := h.visible_root_eq ha
    have hne := chars_ne_nil_of_lookup h ha
    have hsorted := p.ancestors_sorted
    rw [hsplit] at hsorted
    refine ⟨ha, (Path.mem_ancestors_iff hne).1 ?_, ?_⟩
    · rw [hsplit]
      simp
    · intro root hactive hcovers
      obtain ⟨m, hm⟩ := Option.isSome_iff_exists.1 hactive
      have hmem := (Path.mem_ancestors_iff (chars_ne_nil_of_lookup h hm)).2 hcovers
      rw [hsplit, List.mem_append, List.mem_cons] at hmem
      rcases hmem with hmem | rfl | hmem
      · have hnone := hbefore root hmem
        rw [lookup, hm] at hnone
        cases hnone
      · exact Nat.le_refl _
      · exact Nat.le_of_lt ((List.pairwise_cons.1 (List.pairwise_append.1 hsorted).2.1).1 root hmem)
  constructor
  · exact hfound k
  · intro hk
    have hmem := (Path.mem_ancestors_iff (chars_ne_nil_of_lookup h hk.active)).2 hk.covers
    cases hcovering : c.covering p with
    | none =>
      have hnone := List.findSome?_eq_none_iff.1 hcovering k.root hmem
      rw [hk.active] at hnone
      cases hnone
    | some k' => rw [hk.unique (hfound k' hcovering)]

end Catalog

/-! ## The other side of a mapping -/

theorem Repository.overlays_eq {r : Repository} (hr : r.failing = false) (p : Path) :
    r.overlays p = r.tree.contains p := by
  simp only [overlays, has, guardRead, hr]
  rfl

namespace Mapping

def opposite (k : Mapping) (p : Path) : Path :=
  ⟨k.source.chars ++ p.chars.drop k.root.chars.length⟩

/-- A mapping has nothing to say about a path that ends in the separator after the root, and leaves
one below the root to a real node if it can be overlaid. -/
def StandsBack (k : Mapping) (r : Repository) (p : Path) : Prop :=
  p.chars = k.root.chars ++ ['/'] ∨
    (k.overlayable = true ∧ p ≠ k.root ∧ r.tree.contains p = true)

instance (k : Mapping) (r : Repository) (p : Path) : Decidable (k.StandsBack r p) :=
  inferInstanceAs (Decidable (_ ∨ _))

variable {k : Mapping} {r : Repository} {p : Path}

theorem child_of_covers (h : k.root.Covers p) (hroot : p ≠ k.root)
    (hend : p.chars ≠ k.root.chars ++ ['/']) : ∃ s, s ≠ "" ∧ p = k.root.child s :=
  (Path.isWithin_iff.1 (Path.isWithin_iff_covers.2 ⟨h, hend⟩)).resolve_left hroot

theorem opposite_root (k : Mapping) : k.opposite k.root = k.source := by
  simp [opposite]

theorem opposite_child (k : Mapping) (s : String) :
    k.opposite (k.root.child s) = k.source.child s := by
  simp [opposite, Path.child]

/-- Below its root a mapping carries paths to the other side, and the way back leads to the path
again. -/
theorem toSource?_eq_opposite (h : k.root.Covers p) (hend : p.chars ≠ k.root.chars ++ ['/']) :
    k.toSource? p = some (k.opposite p) ∧ k.toRoot? (k.opposite p) = some p := by
  by_cases hroot : p = k.root
  · subst hroot
    rw [opposite_root, toSource?, toRoot?, counterpart?, counterpart?, if_pos rfl, if_pos rfl]
    exact ⟨rfl, rfl⟩
  · obtain ⟨s, hs, rfl⟩ := child_of_covers h hroot hend
    have hbelow : ∀ a : Path, (a.child s).below? a = some s :=
      fun a => Path.below?_eq_some_iff.2 ⟨hs, rfl⟩
    rw [opposite_child, toSource?, toRoot?, counterpart?, counterpart?,
      if_neg (Path.child_ne_self _ s), if_neg (Path.child_ne_self _ s), hbelow, hbelow]
    exact ⟨rfl, rfl⟩

theorem toSource?_of_end (hend : p.chars = k.root.chars ++ ['/']) : k.toSource? p = none := by
  have hroot : p ≠ k.root := by
    rintro rfl
    simpa using congrArg List.length hend
  have hbelow : p.below? k.root = none := by
    rw [Path.below?, hend, Path.textAfter_append]
    rfl
  rw [toSource?, counterpart?, if_neg hroot, hbelow]
  rfl

theorem lookThrough_eq (hr : r.failing = false) (h : k.root.Covers p) :
    k.lookThrough r.overlays p = if k.StandsBack r p then none else some (k.opposite p) := by
  rw [lookThrough, Repository.overlays_eq hr]
  by_cases hend : p.chars = k.root.chars ++ ['/']
  · have hback : k.StandsBack r p := Or.inl hend
    rw [toSource?_of_end hend, if_pos hback]
    split
    · rfl
    · rfl
  · rw [(toSource?_eq_opposite h hend).1]
    -- short of the end, being covered but not the root is being below it
    have hasks : k.asksAbout p = (k.overlayable && decide (p ≠ k.root)) := by
      by_cases hroot : p = k.root
      · simp [asksAbout, hroot]
      · have hbelow := Path.isBelow_iff.2 (child_of_covers h hroot hend)
        simp [asksAbout, hroot, hbelow]
    have hiff : (k.asksAbout p && r.tree.contains p) = true ↔ k.StandsBack r p := by
      rw [hasks, StandsBack, Bool.and_eq_true, Bool.and_eq_true, decide_eq_true_eq, and_assoc]
      exact ⟨Or.inr, fun h => h.resolve_left hend⟩
    by_cases hback : k.StandsBack r p
    · rw [if_pos (hiff.2 hback), if_pos hback]
    · rw [if_neg (mt hiff.1 hback), if_neg hback]

end Mapping

/-! ## What is shown -/

namespace Repository

variable {r : Repository} {c : Catalog} {p : Path} {k : Mapping}

theorem seen_eq (hr : r.failing = false) (p : Path) :
    r.seen p = (r.tree.get? p).map (⟨p, ·.properties⟩) := by
  simp only [seen, node?, guardRead, hr]
  rfl

/-- Only the mapping in charge is looked through. -/
theorem shownAt_eq_some_iff (hr : r.failing = false) (h : c.Consistent) (p : Path)
    (content : Content) :
    r.shownAt c p = some content ↔ ∃ k node, c.Governs p k ∧ ¬ k.StandsBack r p ∧
      r.tree.get? (k.opposite p) = some node ∧
      content = .shown p (k.opposite p) ⟨k.opposite p, node.properties⟩ := by
  rw [shownAt]
  constructor
  · intro hshown
    obtain ⟨k, hk, hshown⟩ := Option.bind_eq_some_iff.1 hshown
    obtain ⟨mapped, hmapped, hshown⟩ := Option.bind_eq_some_iff.1 hshown
    obtain ⟨node, hnode, hshown⟩ := Option.bind_eq_some_iff.1 hshown
    have hgoverns := (Catalog.covering_eq_some_iff h).1 hk
    rw [Mapping.lookThrough_eq hr hgoverns.covers] at hmapped
    split at hmapped
    · cases hmapped
    · next hback =>
      obtain rfl := Option.some.inj hmapped
      rw [seen_eq hr] at hnode
      obtain ⟨node', hnode', rfl⟩ := Option.map_eq_some_iff.1 hnode
      exact ⟨k, node', hgoverns, hback, hnode', (Option.some.inj hshown).symm⟩
  · rintro ⟨k, node, hgoverns, hback, hnode, rfl⟩
    have hcovering := (Catalog.covering_eq_some_iff h).2 hgoverns
    have hthrough := Mapping.lookThrough_eq hr hgoverns.covers
    rw [if_neg hback] at hthrough
    rw [hcovering, Option.bind_eq_bind, Option.bind_some, hthrough, Option.bind_eq_bind,
      Option.bind_some, seen_eq hr, hnode]
    rfl

end Repository

namespace Layer

/-- What comes of a path is decided by the mapping that governs it, which is found by the search
along the way up, and by the node on the other side. If there are both, and the mapping does not stand
back, then the node is shown under the path, and the way back from the node leads to the path. In
every other case the layer beneath answers. Mappings that do not govern the path have no say, whatever
became of them. -/
theorem resolve_by_governing (ops : List Catalog.Op) (r : Repository) (hr : r.failing = false)
    (p : Path) {m : Type → Type} [Monad m] (beneath : Layer m) :
    let c := Catalog.after ops
    let layer := Layer.mapped c r beneath
    (∀ k, c.covering p = some k ↔ c.Governs p k) ∧
    (∀ k node, c.Governs p k → ¬ k.StandsBack r p → r.tree.get? (k.opposite p) = some node →
      let content := Content.shown p (k.opposite p) ⟨k.opposite p, node.properties⟩
      r.shownAt c p = some content ∧ layer.resolve p = pure (some content) ∧
        k.toRoot? (k.opposite p) = some p) ∧
    ((∀ k, c.Governs p k → k.StandsBack r p ∨ r.tree.get? (k.opposite p) = none) →
      r.shownAt c p = none ∧ layer.resolve p = beneath.resolve p ∧
        (Layer.mapped c r (bottom : Layer m)).resolve p = pure none) ∧
    ∀ ops', (∀ k, (Catalog.after ops').Governs p k ↔ c.Governs p k) →
      (Layer.mapped (Catalog.after ops') r beneath).resolve p = layer.resolve p := by
  intro c layer
  have hcons := Catalog.consistent_after ops
  have hshown := fun content => Repository.shownAt_eq_some_iff hr hcons p content
  refine ⟨fun k => Catalog.covering_eq_some_iff hcons, ?_, ?_, ?_⟩
  · intro k node hgoverns hback hnode content
    have hcontent := (hshown content).2 ⟨k, node, hgoverns, hback, hnode, rfl⟩
    have hend : p.chars ≠ k.root.chars ++ ['/'] := fun hend => hback (Or.inl hend)
    refine ⟨hcontent, ?_, (Mapping.toSource?_eq_opposite hgoverns.covers hend).2⟩
    simp only [layer, c, mapped, hcontent]
  · intro hnone
    have hnothing : r.shownAt c p = none := by
      rw [Option.eq_none_iff_forall_not_mem]
      intro content hcontent
      obtain ⟨k, node, hgoverns, hback, hnode, -⟩ := (hshown content).1 hcontent
      rcases hnone k hgoverns with hstands | hmissing
      · exact hback hstands
      · rw [hnode] at hmissing
        cases hmissing
    simp only [layer, mapped, hnothing, bottom, true_and]
  · intro ops' hsame
    have hcons' := Catalog.consistent_after ops'
    have heq : r.shownAt (Catalog.after ops') p = r.shownAt c p := by
      apply Option.ext
      intro content
      rw [Repository.shownAt_eq_some_iff hr hcons', hshown]
      simp only [hsame, c]
    simp only [layer, mapped, heq]

/-- The inner one of two nested mappings decides, also where only the outer one would have something
to show. -/
theorem resolve_by_governing_nested :
    let ops : List Catalog.Op := [.register ⟨.ofString "/a", some "/x", false, false⟩,
      .register ⟨.ofString "/a/b", some "/y", false, true⟩]
    let r := (Repository.empty.transact
      [.addNode (.ofString "/y/c"), .addNode (.ofString "/x/b/d")]).1
    let layer := Layer.mapped (m := Id) (Catalog.after ops) r bottom
    layer.resolve (.ofString "/a/b/c") =
        some (.shown (.ofString "/a/b/c") (.ofString "/y/c") ⟨.ofString "/y/c", .empty⟩) ∧
      layer.resolve (.ofString "/a/b/d") = none := by
  intro ops r layer
  let inner : Mapping := ⟨.ofString "/a/b", .ofString "/y", true,
    Path.isTidy_of_isNormal (by decide), Path.isTidy_of_isNormal (by decide), by decide, by decide⟩
  constructor
  · obtain ⟨hcovering, hshown, -⟩ :=
      resolve_by_governing (m := Id) ops r (by decide) (.ofString "/a/b/c") bottom
    obtain ⟨-, hresolve, -⟩ := hshown inner .bare ((hcovering inner).1 (by decide)) (by decide)
      (by decide)
    exact hresolve
  · obtain ⟨hcovering, -, hnone, -⟩ :=
      resolve_by_governing (m := Id) ops r (by decide) (.ofString "/a/b/d") bottom
    have hinner := (hcovering inner).1 (by decide)
    refine (hnone fun k hk => Or.inr ?_).2.2
    rw [hk.unique hinner]
    decide

end Layer

end Graft
