import Graft.Proofs.Batch.Order
import Graft.Proofs.Repository.Search
import Graft.Proofs.Tree.Markers

/-!
# Written nodes and marked ones

A pass registers the nodes that carry the marker (`Repository.finds_of_carries`). A batch registers
the nodes whose fields were written, whatever they carry. What a batch brings a pass finds as well,
as long as sources are set beside the marker only. A source that is set without the marker brings a
mapping which no pass finds, and which is lost when the catalog is filled again by one
(`brought_is_found_iff`).
-/

namespace Graft

variable {r : Repository} {n : Path} {m : Mapping}

/-! ## Found by a pass -/

theorem Declaration.target?_of_mapping {d : Declaration} (h : d.mapping = .ok m) :
    d.target? = some m.root := by
  rw [target?, h]

namespace Repository

def Carries (r : Repository) (p : Path) : Prop :=
  ∃ node, r.tree.get? p = some node ∧ Declaration.marker ∈ node.tags

/-- The search for the marker finds `n`, and a pass that asks for nothing else makes `m` active when
it comes to `n`, whatever is active before. -/
structure Finds (r : Repository) (n : Path) (m : Mapping) : Prop where
  found : ∃ found, r.search ⟨markerLanguage, Declaration.marker⟩ = .ok found ∧ n ∈ found
  registered : ∃ before later, r.declaring ["marker|superimpose"] = .ok (before ++ n :: later) ∧
    ∀ c : Catalog, c.Open →
      (c.sweep r (fun _ => false) (before ++ [n]) .blank).1.lookup m.root = some m

theorem search_marker (hr : r.failing = false) :
    r.search ⟨markerLanguage, Declaration.marker⟩ = .ok (r.tagged Declaration.marker none) := by
  have hwords : Text.words Declaration.marker.toList = [Declaration.marker.toList] := by decide
  unfold search
  rw [if_neg (by decide), hwords]
  simp only [guardRead, hr]
  rfl

theorem declaring_marker (hr : r.failing = false) :
    r.declaring ["marker|superimpose"] = .ok (r.tagged Declaration.marker none) := by
  have hparse : Query.parse "marker|superimpose" = .ok ⟨markerLanguage, Declaration.marker⟩ := by
    decide
  rw [declaring_cons_eq_ok_iff]
  exact ⟨_, _, [], hparse, search_marker hr, rfl, List.append_nil _⟩

theorem mem_tagged_marker_iff : n ∈ r.tagged Declaration.marker none ↔ r.Carries n := by
  rw [mem_tagged_iff, Carries]
  simp only [Option.all_none, and_true]

theorem Finds.carries (hr : r.failing = false) (h : r.Finds n m) : r.Carries n := by
  obtain ⟨found, hsearch, hmem⟩ := h.found
  rw [search_marker hr] at hsearch
  rw [← mem_tagged_marker_iff, Except.ok.inj hsearch]
  exact hmem

theorem finds_of_carries (hr : r.failing = false) (hm : (r.declaration n).mapping = .ok m)
    (h : r.Carries n) : r.Finds n m where
  found := ⟨_, search_marker hr, mem_tagged_marker_iff.2 h⟩
  registered := by
    obtain ⟨before, later, hsplit⟩ := List.append_of_mem (mem_tagged_marker_iff.2 h)
    refine ⟨before, later, hsplit ▸ declaring_marker hr, fun c hc => ?_⟩
    rw [Catalog.lookup_sweep_last hc, lastAt?_append_cons (Declaration.target?_of_mapping hm)
      fun _ hnone => absurd hnone List.not_mem_nil]
    dsimp only
    rw [hm]
    rfl

end Repository

/-! ## Brought by a batch -/

theorem Declaration.mapping_of_leaves {d : Declaration} {isSealed : Bool} {old : Option Mapping}
    (h : d.leaves isSealed old = some m) (hnew : old ≠ some m) : d.mapping = .ok m := by
  unfold leaves at h
  cases hm : d.mapping with
  | ok m' =>
    rw [hm] at h
    cases isSealed with
    | true => exact absurd h hnew
    | false => exact congrArg Except.ok (Option.some.inj h)
  | error flaw =>
    rw [hm] at h
    cases h

/-- Whoever is written is to be registered where nothing is active. -/
theorem Plan.get?_of_empty {batch : List Change}
    (h : ∃ change ∈ batch, change.asks n = some .register) :
    (Plan.of .empty batch).actions.get? n = some .register := by
  obtain ⟨change, hmem, hasks⟩ := h
  have hempty : Catalog.empty.contains n ≠ true := Bool.false_ne_true
  cases haction : (Plan.of .empty batch).actions.get? n with
  | none =>
    rw [get?_of, List.findSome?_eq_none_iff] at haction
    have hnone := haction change (List.mem_reverse.2 hmem)
    rw [heeds, hasks] at hnone
    cases hnone
  | some a => rw [(get?_of_free Catalog.consistent_empty hempty haction).1]

namespace Catalog

variable {c : Catalog} {order : List (Path × Action)}

/-- Of the actions it is the registration of `n` that makes `m` active. -/
def Brings (c : Catalog) (r : Repository) (order : List (Path × Action)) (n : Path) (m : Mapping) :
    Prop :=
  ∃ before later, order = before ++ (n, .register) :: later ∧
    (c.perform r before .blank).1.lookup m.root ≠ some m ∧
    (c.perform r (before ++ [(n, .register)]) .blank).1.lookup m.root = some m

theorem consistent_foldl_act (h : c.Consistent) (r : Repository) (order : List (Path × Action))
    (out : Batch.Outcome) : (order.foldl (act r) (c, out)).1.Consistent :=
  List.foldlRecOn (motive := fun s : Catalog × Batch.Outcome => s.1.Consistent) order (act r) h
    fun _ hs x _ => (tells_act hs r x).consistent

/-- Only what the node declares can become active by its registration. -/
theorem Brings.declares (hr : r.failing = false) (h : c.Consistent) (hm : c.Brings r order n m) :
    (n, .register) ∈ order ∧ (r.declaration n).mapping = .ok m := by
  obtain ⟨before, later, rfl, hbefore, hafter⟩ := hm
  refine ⟨List.mem_append_right _ List.mem_cons_self, ?_⟩
  have hs := consistent_foldl_act h r before .blank
  rw [perform_eq hr] at hbefore hafter
  rw [List.foldl_append, List.foldl_cons, List.foldl_nil, lookup_act hs] at hafter
  split at hafter
  · exact Declaration.mapping_of_leaves hafter hbefore
  · exact absurd hafter hbefore

/-- What is declared becomes active if it is registered first. -/
theorem brings_first (hr : r.failing = false) (h : c.Open)
    (hm : (r.declaration n).mapping = .ok m) (hnew : c.lookup m.root ≠ some m)
    (later : List (Path × Action)) : c.Brings r ((n, .register) :: later) n m := by
  refine ⟨[], later, rfl, hnew, ?_⟩
  rw [List.nil_append, perform_eq hr, List.foldl_cons, List.foldl_nil, act,
    if_pos (Repository.contains_of_mapping hr hm), h.lookup_register_target,
    if_pos (Declaration.target?_of_mapping hm), hm]
  rfl

/-- Let reads succeed and follow any batch. In a tree all of whose sources were set beside the
marker, whatever is brought by the registration of a node is found by a pass, on any catalog and in
any order of the actions. In any other tree this depends on the nodes that the batch tells were
written: it is so exactly if all of them that declare a mapping carry the marker. -/
theorem brought_is_found_iff {transactions : List (List Edit)}
    (ht : r.tree = Tree.after transactions) (hr : r.failing = false) (batch : List Change) :
    let brought := ∀ history order n m,
      order.Perm (Plan.of (Catalog.after history) batch).actions.entries →
      (Catalog.after history).Brings r order n m → r.Finds n m
    (Tree.MarksFirst .empty transactions.flatten → brought) ∧
    (brought ↔ ∀ n m, (∃ change ∈ batch, change.asks n = some .register) →
      (r.declaration n).mapping = .ok m → r.Carries n) := by
  intro brought
  have hiff : brought ↔ ∀ n m, (∃ change ∈ batch, change.asks n = some .register) →
      (r.declaration n).mapping = .ok m → r.Carries n := by
    constructor
    · intro hfound n m hasks hm
      -- nothing is active, and the registration comes before all other actions
      have hopen : Catalog.empty.Open := ⟨consistent_empty, rfl⟩
      have hmem := Table.get?_eq_some_iff.1 (Plan.get?_of_empty hasks)
      have hbrings := brings_first hr hopen hm (fun hnone => nomatch hnone)
        ((Plan.of .empty batch).actions.entries.erase (n, .register))
      exact (hfound [] _ n m (List.perm_cons_erase hmem).symm hbrings).carries hr
    · intro hcarries history order n m horder hbrings
      have h : (Catalog.after history).Consistent := consistent_after history
      obtain ⟨hmem, hm⟩ := hbrings.declares hr h
      have haction := Table.get?_eq_some_iff.2 (horder.subset hmem)
      exact Repository.finds_of_carries hr hm
        (hcarries n m (Plan.asks_of_register h haction) hm)
  refine ⟨fun hfirst => hiff.2 fun n m _ hm => ?_, hiff⟩
  have hmarked : r.tree.SourcesMarked := ht ▸ Tree.sourcesMarked_after hfirst
  have hsource := Declaration.source_of_mapping hm
  rw [Repository.declaration_eq hr, Declaration.ofFields, Tree.field] at hsource
  cases hnode : r.tree.get? n with
  | none =>
    rw [hnode] at hsource
    cases hsource
  | some node =>
    refine ⟨node, hnode, hmarked n node hnode fun hnone => ?_⟩
    rw [hnode, Option.bind_some, hnone] at hsource
    cases hsource

/-- A node that declares a mapping for its parent is moved and gets another source, and so does a
node that has just got the marker. The actions are carried out in reverse, and one mapping takes the
place of another. -/
theorem brought_is_found_iff_moved :
    let earlier := [[.declare (.ofString "/b/def") "/s" true false,
      .moveNode (.ofString "/b/def") (.ofString "/c/def")]]
    let edits := [.addTag (.ofString "/a") "superimpose",
      .setProperty (.ofString "/a") "sourcePath" (.text "/u"),
      .setProperty (.ofString " /c//def/") "sourcePath" (.text "/t")]
    let r := { Repository.empty with tree := Tree.after (earlier ++ [edits]) }
    let batch := ((Tree.after earlier).transact edits).changes
    let history : List Op := [.register ⟨.ofString "/c/def", some "/s", true, false⟩]
    let order := (Plan.of (after history) batch).actions.entries.reverse
    ∃ m, (after history).contains m.root = true ∧ r.Finds (.ofString "/c/def") m ∧
      (after history).Brings r order (.ofString "/c/def") m := by
  intro earlier edits r batch history order
  let m : Mapping := ⟨.ofString "/c", .ofString "/t", false,
    Path.isTidy_of_isNormal (by decide), Path.isTidy_of_isNormal (by decide), by decide, by decide⟩
  obtain ⟨hbrought, -⟩ := brought_is_found_iff (r := r) rfl rfl batch
  have hfirst : Tree.MarksFirst .empty (earlier ++ [edits]).flatten := by decide
  have hbrings : (after history).Brings r order (.ofString "/c/def") m :=
    ⟨[], [(.ofString "/a", .register)], by decide, by decide, by decide⟩
  exact ⟨m, by decide, hbrought hfirst history order _ m (List.reverse_perm _) hbrings, hbrings⟩

/-- A source is set on a node without the marker. The mapping becomes active, and the search for the
marker finds nothing. -/
theorem unmarked_is_brought :
    let edits := [Edit.setProperty (.ofString "/b") "sourcePath" (.text "/a")]
    let r := (Repository.empty.transact edits).1
    let order := (Plan.of (after []) (Repository.empty.tree.transact edits).changes).actions.entries
    r.search ⟨"marker", "superimpose"⟩ = .ok [] ∧
      ¬ ∀ n m, (after []).Brings r order n m → r.Finds n m := by
  intro edits r order
  let m : Mapping := ⟨.ofString "/b", .ofString "/a", false,
    Path.isTidy_of_isNormal (by decide), Path.isTidy_of_isNormal (by decide), by decide, by decide⟩
  have hnothing : r.search ⟨"marker", "superimpose"⟩ = .ok [] := by decide
  refine ⟨hnothing, fun hfound => ?_⟩
  have hbrings : (after []).Brings r order (.ofString "/b") m :=
    ⟨[], [], by decide, by decide, by decide⟩
  obtain ⟨found, hsearch, hmem⟩ := (hfound _ _ hbrings).found
  obtain rfl : [] = found := Except.ok.inj (hnothing.symm.trans hsearch)
  cases hmem

end Catalog

end Graft
