import Graft.Proofs.Layer.Resolution
import Graft.Proofs.Mapping.Inverse
import Graft.Proofs.Tree.Children

/-!
# What the mapped layer lists

Content is resolved from the path that is asked for, which a mapping carries to the other side. It
is listed from the other side, where the children of a node are found, whose names are put after the
path that the content is shown at. The two ways come to the same children as long as no mapping has
its root at one of them: one level down the same mapping is in charge (`Catalog.Leads.child`), and a
name is added on both sides alike (`Mapping.counterpart?_child`).

Only resolving asks which nodes really exist. For a plain mapping this makes no difference
(`resolves_what_it_lists`). For one that can be overlaid it does, but right below the root only:
where it shows anything further below, there is no real node, and so there is none under it
(`overlaid_lists_its_root`).
-/

namespace Graft

variable {r : Repository} {c : Catalog} {k : Mapping} {p q mapped : Path} {s : String}

/-! ## One level down -/

theorem Path.child_isBelow (hs : s ≠ "") (h : p.isWithin q = true) :
    (p.child s).isBelow q = true := by
  rcases isWithin_iff.1 (child_isWithin hs h) with hself | hbelow
  · -- the child is longer than what `p` begins with
    obtain ⟨rest, hrest⟩ := chars_of_isWithin h
    have hlength := congrArg (·.chars.length) hself
    simp only [child, hrest, List.length_append, List.length_cons] at hlength
    omega
  · exact isBelow_iff.2 hbelow

namespace Mapping

theorem counterpart?_child {start goal : Path} (h : counterpart? start goal p = some q)
    (hs : s ≠ "") : counterpart? start goal (p.child s) = some (q.child s) := by
  rw [counterpart?_eq_some_iff] at h ⊢
  right
  rcases h with ⟨rfl, rfl⟩ | ⟨s', -, rfl, rfl⟩
  · exact ⟨s, hs, rfl, rfl⟩
  · refine ⟨s' ++ "/" ++ s, ?_, Path.child_child _ _ _, Path.child_child _ _ _⟩
    intro hempty
    exact hs (String.append_eq_empty_iff.1 hempty).2

/-- Where a mapping leads from an untidy path there is no tidy one. -/
theorem isTidy_of_toSource? (h : k.toSource? p = some mapped) (hmapped : mapped.IsTidy) :
    p.IsTidy := by
  rcases counterpart?_eq_some_iff.1 h with ⟨rfl, -⟩ | ⟨s, -, rfl, rfl⟩
  · exact k.root_tidy
  · exact Path.isTidy_child_of_child k.source_tidy k.root_tidy hmapped

theorem isWithin_of_toSource? (h : k.toSource? p = some mapped) : p.isWithin k.root = true := by
  rw [← isSome_counterpart? k.root k.source]
  exact Option.isSome_of_mem h

/-- The answer depends on what really exists everywhere below the root of an overlayable mapping. -/
theorem asksAbout_of_isBelow (h : p.isBelow k.root = true) : k.asksAbout p = k.overlayable := by
  have hroot : p ≠ k.root := by
    obtain ⟨s, -, rfl⟩ := Path.isBelow_iff.1 h
    exact Path.child_ne_self k.root s
  rw [asksAbout, h, decide_eq_true hroot, Bool.and_true, Bool.and_true]

end Mapping

namespace Catalog

/-- The mapping in charge of `p` is `k`, and it leads to `mapped`. -/
structure Leads (c : Catalog) (k : Mapping) (p mapped : Path) : Prop where
  covers : c.covering p = some k
  leads : k.toSource? p = some mapped

/-- One level down the same mapping is in charge, unless another one has its root there. -/
theorem covering_of_parent (h : q.parent = some p) (hroot : c.lookup q = none) :
    c.covering q = c.covering p := by
  rw [covering, covering, Path.ancestors, Path.ancestors, List.findSome?_cons, hroot,
    Path.above_of_parent h]

theorem Leads.child (h : c.Leads k p mapped) (hs : s ≠ "") (hp : (p.child s).parent = some p)
    (hroot : c.lookup (p.child s) = none) : c.Leads k (p.child s) (mapped.child s) where
  covers := (covering_of_parent hp hroot).trans h.covers
  leads := Mapping.counterpart?_child h.leads hs

theorem Leads.isBelow_child (h : c.Leads k p mapped) (hs : s ≠ "") :
    (p.child s).isBelow k.root = true :=
  Path.child_isBelow hs (Mapping.isWithin_of_toSource? h.leads)

end Catalog

/-! ## Shown and listed -/

namespace Repository

/-- The content that is shown at `p` if `mapped` is where it is read. -/
def contentAt (r : Repository) (p mapped : Path) : Option Content :=
  (r.tree.get? mapped).map fun node => .shown p mapped ⟨mapped, node.properties⟩

def listed (r : Repository) : Content → List Content
  | .shown path mapped _ => r.shownBelow path mapped
  | .stored _ => []

theorem shownAt_of_leads (hr : r.failing = false) (h : c.Leads k p mapped) :
    r.shownAt c p = if k.asksAbout p && r.tree.contains p then none else r.contentAt p mapped := by
  rw [shownAt, h.covers, Option.bind_eq_bind, Option.bind_some, Mapping.lookThrough,
    overlays_eq hr, h.leads]
  split
  · rfl
  · rw [Option.bind_eq_bind, Option.bind_some, seen_eq hr, contentAt]
    cases r.tree.get? mapped with
    | none => rfl
    | some node => rfl

/-- What is shown at a path is what the mapping in charge leads to. -/
theorem leads_of_shownAt (hr : r.failing = false) (hk : c.covering p = some k) {content : Content}
    (hshown : r.shownAt c p = some content) : ∃ mapped, c.Leads k p mapped ∧
      (k.asksAbout p && r.tree.contains p) = false ∧ r.contentAt p mapped = some content := by
  cases hmapped : k.toSource? p with
  | none =>
    have hnone : k.lookThrough r.overlays p = none := by
      rw [Mapping.lookThrough, hmapped, ite_self]
    rw [shownAt, hk, Option.bind_eq_bind, Option.bind_some, hnone] at hshown
    cases hshown
  | some mapped =>
    have hleads : c.Leads k p mapped := ⟨hk, hmapped⟩
    rw [shownAt_of_leads hr hleads] at hshown
    split at hshown
    · cases hshown
    · next hback => exact ⟨mapped, hleads, Bool.eq_false_iff.2 hback, hshown⟩

theorem contentAt_eq_some_iff {content : Content} :
    r.contentAt p mapped = some content ↔ ∃ node, r.tree.get? mapped = some node ∧
      content = .shown p mapped ⟨mapped, node.properties⟩ := by
  rw [contentAt, Option.map_eq_some_iff]
  simp only [eq_comm]

theorem shownBelow_eq (hr : r.failing = false) (path mapped : Path) :
    r.shownBelow path mapped = (r.tree.children mapped).map fun e =>
      .shown (path.child e.1.name) e.1 ⟨e.1, e.2.properties⟩ := by
  have hseen : r.seenBelow mapped =
      (r.tree.children mapped).map fun e => ⟨e.1, e.2.properties⟩ := by
    simp only [seenBelow, children, guardRead, hr]
    rfl
  rw [shownBelow, hseen, List.map_map]
  rfl

theorem path_of_contentAt {content : Content} (h : r.contentAt p mapped = some content) :
    content.path = p := by
  obtain ⟨node, -, rfl⟩ := contentAt_eq_some_iff.1 h
  rfl

/-- What is listed goes by the names of the nodes that are one level below on the other side. -/
theorem mem_shownBelow_iff (hr : r.failing = false) (ht : r.tree.WellFormed) {path : Path}
    {child : Content} : child ∈ r.shownBelow path mapped ↔ ∃ s : String, s ≠ "" ∧ '/' ∉ s.toList ∧
      r.contentAt (path.child s) (mapped.child s) = some child := by
  rw [shownBelow_eq hr, List.mem_map]
  constructor
  · rintro ⟨e, he, rfl⟩
    obtain ⟨hentry, s, hsep, hpath⟩ := Tree.mem_children_iff.1 he
    have hnode := Table.get?_eq_some_iff.2 hentry
    refine ⟨s, ?_, hsep, contentAt_eq_some_iff.2 ⟨e.2, hpath ▸ hnode, ?_⟩⟩
    · rintro rfl
      have htidy := ht.tidy (Option.isSome_of_mem hnode)
      rw [hpath] at htidy
      exact htidy.chars_ne_append_separator mapped.chars rfl
    · rw [hpath, Path.name_child hsep]
  · rintro ⟨s, -, hsep, hchild⟩
    obtain ⟨node, hnode, rfl⟩ := contentAt_eq_some_iff.1 hchild
    have hentry := Table.get?_eq_some_iff.1 hnode
    refine ⟨(mapped.child s, node), Tree.mem_children_iff.2 ⟨hentry, s, hsep, rfl⟩, ?_⟩
    rw [Path.name_child hsep]

/-- What is listed is in the order of the names. -/
theorem shownBelow_sorted (hr : r.failing = false) (path mapped : Path) :
    (r.shownBelow path mapped).Pairwise (·.path.name < ·.path.name) := by
  rw [shownBelow_eq hr, List.pairwise_map]
  have hsorted := r.tree.sorted.sublist (Tree.children_sublist r.tree mapped)
  apply hsorted.imp_of_mem
  intro a b ha hb hab
  obtain ⟨-, s, hsep, hpath⟩ := Tree.mem_children_iff.1 ha
  obtain ⟨-, s', hsep', hpath'⟩ := Tree.mem_children_iff.1 hb
  rw [hpath, hpath', Path.child_lt_child_iff] at hab
  rw [hpath, hpath', Path.name_child hsep, Path.name_child hsep']
  show (path.child s).name < (path.child s').name
  rwa [Path.name_child hsep, Path.name_child hsep']

/-- `k` is in charge where `content` is shown, and leads to where it is read. -/
def ShownThrough (r : Repository) (c : Catalog) (k : Mapping) (content : Content) : Prop :=
  ∃ p mapped, c.Leads k p mapped ∧ r.contentAt p mapped = some content

/-- What is come to from `start` by listing, and by listing on what is listed as long as no mapping
has its root there. -/
inductive ListedUnder (r : Repository) (c : Catalog) (start : Content) : Content → Prop
  | here : ListedUnder r c start start
  | next {content child : Content} : ListedUnder r c start content → child ∈ r.listed content →
      c.lookup child.path = none → ListedUnder r c start child

theorem ShownThrough.shownAt (hr : r.failing = false) {content : Content}
    (h : r.ShownThrough c k content) : r.shownAt c content.path =
      if k.asksAbout content.path && r.tree.contains content.path then none else some content := by
  obtain ⟨p, mapped, hleads, hcontent⟩ := h
  rw [path_of_contentAt hcontent, shownAt_of_leads hr hleads, hcontent]

section

variable {content child : Content} (hr : r.failing = false) (ht : r.tree.WellFormed)

include hr ht

/-- A child stands one level below the content, with the same name on both sides. -/
theorem ShownThrough.listed_child (h : r.ShownThrough c k content)
    (hchild : child ∈ r.listed content) :
    child.path.parent = some content.path ∧ child.path.isBelow k.root = true ∧
      (c.lookup child.path = none → r.ShownThrough c k child) := by
  obtain ⟨p, mapped, hleads, hcontent⟩ := h
  obtain ⟨node, hnode, rfl⟩ := contentAt_eq_some_iff.1 hcontent
  obtain ⟨s, hs, hsep, hfound⟩ := (mem_shownBelow_iff hr ht).1 hchild
  have htidy := Mapping.isTidy_of_toSource? hleads.leads (ht.tidy (Option.isSome_of_mem hnode))
  have hparent : (p.child s).parent = some p :=
    Path.parent_child (Path.chars_ne_nil_of_isTidy htidy) hsep
  rw [path_of_contentAt hfound]
  refine ⟨hparent, hleads.isBelow_child hs, fun hroot => ?_⟩
  exact ⟨_, _, hleads.child hs hparent hroot, hfound⟩

theorem ListedUnder.shownThrough {start : Content} (hstart : r.ShownThrough c k start)
    (h : r.ListedUnder c start content) : r.ShownThrough c k content := by
  induction h with
  | here => exact hstart
  | next _ hchild hroot ih => exact (ih.listed_child hr ht hchild).2.2 hroot

/-- Whatever is shown one level below is listed. -/
theorem ShownThrough.mem_listed (h : r.ShownThrough c k content)
    (hq : q.parent = some content.path) (hroot : c.lookup q = none)
    (hfound : r.shownAt c q = some child) : child ∈ r.listed content := by
  obtain ⟨p, mapped, hleads, hcontent⟩ := h
  obtain ⟨node, -, rfl⟩ := contentAt_eq_some_iff.1 hcontent
  have hq : q.parent = some p := hq
  obtain ⟨-, s, hsep, rfl⟩ := Path.parent_eq_some_iff.1 hq
  have hcovers := (Catalog.covering_of_parent hq hroot).trans hleads.covers
  obtain ⟨mapped', hleads', -, hfound'⟩ := leads_of_shownAt hr hcovers hfound
  obtain ⟨node', hnode', -⟩ := contentAt_eq_some_iff.1 hfound'
  -- the last segment is not empty, since what is read stands at a tidy path
  have htidy := Mapping.isTidy_of_toSource? hleads'.leads (ht.tidy (Option.isSome_of_mem hnode'))
  have hs : s ≠ "" := by
    rintro rfl
    exact htidy.chars_ne_append_separator _ rfl
  have hmapped : mapped' = mapped.child s := by
    have hchild := (hleads.child hs hq hroot).leads
    rw [hleads'.leads] at hchild
    exact Option.some.inj hchild
  exact (mem_shownBelow_iff hr ht).2 ⟨s, hs, hsep, hmapped ▸ hfound'⟩

end

end Repository

/-! ## Listing and resolving -/

namespace Layer

variable {m : Type → Type} [Monad m] {beneath : Layer m} {content child : Content}

/-- Listing `content` gives, in the order of their names, what is found one level below it by
resolving. Where a mapping has its root, this one decides what is found. -/
structure ListsWhatResolves (layer : Layer m) (r : Repository) (c : Catalog) (content : Content) :
    Prop where
  answers : layer.list content = pure (r.listed content)
  parents : ∀ child ∈ r.listed content, child.path.parent = some content.path
  resolves : ∀ child ∈ r.listed content, c.lookup child.path = none →
    r.shownAt c child.path = some child ∧ layer.resolve child.path = pure (some child)
  complete : ∀ q found, q.parent = some content.path → c.lookup q = none →
    r.shownAt c q = some found → found ∈ r.listed content
  sorted : (r.listed content).Pairwise (·.path.name < ·.path.name)
  nodup : ((r.listed content).map Content.path).Nodup

theorem resolve_of_shownAt (h : r.shownAt c p = some content) :
    (Layer.mapped c r beneath).resolve p = pure (some content) := by
  simp only [Layer.mapped, h]

theorem resolve_of_shownAt_eq_none (h : r.shownAt c p = none) :
    (Layer.mapped c r beneath).resolve p = beneath.resolve p := by
  simp only [Layer.mapped, h]

theorem list_of_shownThrough (h : r.ShownThrough c k content) :
    (Layer.mapped c r beneath).list content = pure (r.listed content) := by
  obtain ⟨p, mapped, -, hcontent⟩ := h
  obtain ⟨node, -, rfl⟩ := Repository.contentAt_eq_some_iff.1 hcontent
  rfl

theorem listsWhatResolves_of_plain (hr : r.failing = false) (ht : r.tree.WellFormed)
    (hplain : k.overlayable = false) (h : r.ShownThrough c k content) :
    (Layer.mapped c r beneath).ListsWhatResolves r c content := by
  have hsorted : (r.listed content).Pairwise (·.path.name < ·.path.name) := by
    obtain ⟨p, mapped, -, hcontent⟩ := h
    obtain ⟨node, -, rfl⟩ := Repository.contentAt_eq_some_iff.1 hcontent
    exact Repository.shownBelow_sorted hr p mapped
  refine ⟨list_of_shownThrough h, ?_, ?_, ?_, hsorted, ?_⟩
  · intro child hchild
    exact (h.listed_child hr ht hchild).1
  · intro child hchild hroot
    have hshown := ((h.listed_child hr ht hchild).2.2 hroot).shownAt hr
    rw [Mapping.asksAbout, hplain] at hshown
    exact ⟨hshown, resolve_of_shownAt hshown⟩
  · intro q found hq hroot hfound
    exact h.mem_listed hr ht hq hroot hfound
  · rw [List.Nodup, List.pairwise_map]
    exact hsorted.imp fun {a b} hlt heq => absurd (heq ▸ hlt) (String.lt_irrefl _)

/-- Content that a plain mapping shows is listed as it is resolved: what is listed stands one level
below it, in the order of the names and each once, and where no mapping has its root it is what
resolving gives there; and whatever is shown one level below it at such a place is listed. The same
is so of everything listed at such a place, and of what is listed there, at any depth. -/
theorem resolves_what_it_lists {transactions : List (List Edit)}
    (ht : r.tree = Tree.after transactions) (hr : r.failing = false) (c : Catalog)
    (hk : c.covering p = some k) (hplain : k.overlayable = false)
    (hshown : r.shownAt c p = some content) (beneath : Layer m) :
    let layer := Layer.mapped c r beneath
    layer.resolve p = pure (some content) ∧
      ∀ content', r.ListedUnder c content content' → layer.ListsWhatResolves r c content' := by
  intro layer
  have hwell : r.tree.WellFormed := ht ▸ Tree.wellFormed_after transactions
  obtain ⟨mapped, hleads, -, hcontent⟩ := Repository.leads_of_shownAt hr hk hshown
  refine ⟨resolve_of_shownAt hshown, fun content' hunder => ?_⟩
  exact listsWhatResolves_of_plain hr hwell hplain
    (hunder.shownThrough hr hwell ⟨p, mapped, hleads, hcontent⟩)

/-- A mapping is nested in another one, at a place where the outer one lists something. -/
theorem resolves_what_it_lists_nested :
    let transactions := [[.addNode (.ofString "/a/x"), .addNode (.ofString "/a/z"),
      .setProperty (.ofString "/a/x/y") "k" (.flag true)]]
    let r := { Repository.empty with tree := Tree.after transactions }
    let c := Catalog.after [.register ⟨.ofString "/b", some "/a", false, false⟩,
      .register ⟨.ofString "/b/z", some "/c", false, true⟩]
    let layer := Layer.mapped (m := Id) c r bottom
    let top := Content.shown (.ofString "/b") (.ofString "/a") ⟨.ofString "/a", .empty⟩
    let inner := Content.shown (.ofString "/b/x") (.ofString "/a/x") ⟨.ofString "/a/x", .empty⟩
    layer.resolve (.ofString "/b") = some top ∧
      (layer.list top).map Content.path = ["/b/x", "/b/z"].map .ofString ∧
      c.contains (.ofString "/b/z") = true ∧
      layer.ListsWhatResolves r c inner ∧
      (layer.list inner).map Content.path = [.ofString "/b/x/y"] := by
  intro transactions r c layer top inner
  let outer : Mapping := ⟨.ofString "/b", .ofString "/a", false,
    Path.isTidy_of_isNormal (by decide), Path.isTidy_of_isNormal (by decide), by decide, by decide⟩
  have hk : c.covering (.ofString "/b") = some outer := by decide
  have hshown : r.shownAt c (.ofString "/b") = some top := by decide
  obtain ⟨hresolve, hlists⟩ :=
    resolves_what_it_lists (m := Id) (r := r) rfl rfl c hk rfl hshown bottom
  have hunder : r.ListedUnder c top inner := .next .here (by decide) (by decide)
  exact ⟨hresolve, by decide, by decide, hlists inner hunder, by decide⟩

/-- Content that an overlayable mapping shows on top of the repository is listed as if no node
really existed below it. What is listed is what resolving gives, as long as there is no node and no
other mapping has its root there. Where there is a node, resolving gives this node, which is not
what is listed. This happens right below the root of the mapping and nowhere else. -/
theorem overlaid_lists_its_root {transactions : List (List Edit)}
    (ht : r.tree = Tree.after transactions) (hr : r.failing = false) (c : Catalog)
    (hk : c.covering p = some k) (hoverlay : k.overlayable = true)
    (hshown : r.shownAt c p = some content) :
    let layer := Layer.mapped c r (ofRepository r : Layer m)
    layer.list content = pure (r.listed content) ∧
    ∀ child ∈ r.listed content, c.lookup child.path = none →
      (r.tree.contains child.path = false → layer.resolve child.path = pure (some child)) ∧
      (∀ node, r.tree.get? child.path = some node →
        layer.resolve child.path = pure (some (.stored ⟨child.path, node.properties⟩))) ∧
      (p ≠ k.root → r.tree.contains child.path = false) := by
  intro layer
  have hwell : r.tree.WellFormed := ht ▸ Tree.wellFormed_after transactions
  obtain ⟨mapped, hleads, hback, hcontent⟩ := Repository.leads_of_shownAt hr hk hshown
  have hthrough : r.ShownThrough c k content := ⟨p, mapped, hleads, hcontent⟩
  refine ⟨list_of_shownThrough hthrough, ?_⟩
  intro child hchild hroot
  obtain ⟨hparent, hbelow, hnext⟩ := hthrough.listed_child hr hwell hchild
  have hanswer := (hnext hroot).shownAt hr
  rw [Mapping.asksAbout_of_isBelow hbelow, hoverlay, Bool.true_and] at hanswer
  refine ⟨?_, ?_, ?_⟩
  · intro hfree
    rw [if_neg (Bool.eq_false_iff.1 hfree)] at hanswer
    exact resolve_of_shownAt hanswer
  · intro node hnode
    have hthere : r.tree.contains child.path = true := Option.isSome_of_mem hnode
    rw [if_pos hthere] at hanswer
    have hbeneath : layer.resolve child.path = pure ((r.seen child.path).map .stored) :=
      resolve_of_shownAt_eq_none hanswer
    rw [hbeneath, Repository.seen_eq hr, hnode]
    rfl
  · intro hp
    -- with the child its parent would exist, where the mapping would not have shown anything
    rw [← Bool.not_eq_true]
    intro hthere
    rw [Repository.path_of_contentAt hcontent] at hparent
    have hup := hwell.closed hthere hparent
    have hin := Mapping.isWithin_of_toSource? hleads.leads
    have hasks : k.asksAbout p = true := by
      rw [Path.isWithin, Bool.or_eq_true, beq_iff_eq] at hin
      rw [Mapping.asksAbout_of_isBelow (hin.resolve_left hp), hoverlay]
    rw [hasks, hup] at hback
    cases hback

/-- Of two nodes that are listed below the root one is hidden by a node that really exists. -/
theorem overlaid_lists_its_root_twice :
    let transactions := [[.addNode (.ofString "/s/a"), .addNode (.ofString "/s/b"),
      .setProperty (.ofString "/r/a") "k" (.flag true)]]
    let r := { Repository.empty with tree := Tree.after transactions }
    let c := Catalog.after [.register ⟨.ofString "/r", some "/s", false, true⟩]
    let layer := Layer.mapped (m := Id) c r (ofRepository r)
    let top := Content.shown (.ofString "/r") (.ofString "/s") ⟨.ofString "/s", .empty⟩
    let a := Content.shown (.ofString "/r/a") (.ofString "/s/a") ⟨.ofString "/s/a", .empty⟩
    let b := Content.shown (.ofString "/r/b") (.ofString "/s/b") ⟨.ofString "/s/b", .empty⟩
    layer.resolve (.ofString "/r") = some top ∧ layer.list top = [a, b] ∧
      layer.resolve (.ofString "/r/a") =
        some (.stored ⟨.ofString "/r/a", Table.empty.insert "k" (.flag true)⟩) ∧
      layer.resolve (.ofString "/r/b") = some b := by
  intro transactions r c layer top a b
  let k : Mapping := ⟨.ofString "/r", .ofString "/s", true,
    Path.isTidy_of_isNormal (by decide), Path.isTidy_of_isNormal (by decide), by decide, by decide⟩
  have hk : c.covering (.ofString "/r") = some k := by decide
  have hshown : r.shownAt c (.ofString "/r") = some top := by decide
  obtain ⟨hlist, hlisted⟩ := overlaid_lists_its_root (m := Id) (r := r) rfl rfl c hk rfl hshown
  have hreal : r.tree.get? (.ofString "/r/a") = some ⟨[], Table.empty.insert "k" (.flag true)⟩ := by
    decide
  obtain ⟨-, ha, -⟩ := hlisted a (by decide) (by decide)
  obtain ⟨hb, -⟩ := hlisted b (by decide) (by decide)
  have hboth : r.listed top = [a, b] := by decide
  exact ⟨resolve_of_shownAt hshown, hlist.trans (congrArg pure hboth), ha _ hreal, hb (by decide)⟩

/-- What is listed below the root is not what resolving gives where a node really exists. -/
theorem overlaid_lists_hidden :
    let transactions := [[.addNode (.ofString "/s/a"),
      .setProperty (.ofString "/r/a") "k" (.flag true)]]
    let r := { Repository.empty with tree := Tree.after transactions }
    let c := Catalog.after [.register ⟨.ofString "/r", some "/s", false, true⟩]
    let layer := Layer.mapped (m := Id) c r (ofRepository r)
    ¬ ∀ content, Id.run (layer.resolve (.ofString "/r")) = some content →
      ∀ child ∈ Id.run (layer.list content), c.lookup child.path = none →
        Id.run (layer.resolve child.path) = some child := by
  intro transactions r c layer hagrees
  let top := Content.shown (.ofString "/r") (.ofString "/s") ⟨.ofString "/s", .empty⟩
  let a := Content.shown (.ofString "/r/a") (.ofString "/s/a") ⟨.ofString "/s/a", .empty⟩
  have hresolve : Id.run (layer.resolve (.ofString "/r/a")) = some a :=
    hagrees top (by decide) a (by decide) (by decide)
  have hreal : Id.run (layer.resolve (.ofString "/r/a")) ≠ some a := by decide
  exact hreal hresolve

end Layer

end Graft
