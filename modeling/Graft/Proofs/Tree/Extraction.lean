import Graft.Proofs.Tree.Children

/-!
# Taking subtrees out

The subtree of a path is taken out in two rounds: a scan of the keys from the path on collects those
within it, and then the entries are removed one after the other (`takeOut`). The scan is a filter of
the whole tree (`range_eq_filter`, `subtree_eq_filter`), and so is what is left (`prune_eq_filter`).

Between a path and what lies below it there may stand other keys, the path followed by a character
that sorts before the separator (`between_stem_iff`). The scan passes them by and goes on to all
that lies below the path.
-/

namespace Graft

namespace Path

variable {p q : Path}

theorem startsWith_stem (p : Path) : p.stem.startsWith p = true :=
  startsWith_iff.2 ⟨['/'], rfl⟩

/-- The keys between a path and everything below it. -/
theorem between_stem_iff :
    p < q ∧ q < p.stem ↔ ∃ c rest, c < '/' ∧ q.chars = p.chars ++ c :: rest := by
  constructor
  · rintro ⟨hlt, hstem⟩
    have hstarts : q.startsWith p = true :=
      startsWith_of_between (fun h => List.lt_asymm hlt h) hstem (startsWith_stem p)
    obtain ⟨tail, htail⟩ := startsWith_iff.1 hstarts
    rw [lt_def, htail, stem, append_lt_append_iff] at hstem
    cases tail with
    | nil =>
      rw [lt_def, htail, List.append_nil] at hlt
      exact absurd hlt (List.lt_irrefl _)
    | cons c rest =>
      rw [List.cons_lt_cons_iff] at hstem
      exact ⟨c, rest, hstem.resolve_right fun h => List.not_lt_nil _ h.2, htail⟩
  · rintro ⟨c, rest, hc, hq⟩
    rw [lt_def, lt_def, hq, stem, append_lt_append_iff]
    refine ⟨?_, List.cons_lt_cons_iff.2 (Or.inl hc)⟩
    conv_lhs => rw [← List.append_nil p.chars]
    exact (append_lt_append_iff _).2 (List.nil_lt_cons c rest)

theorem lt_child_of_lt_stem (h : q < p.stem) (s : String) : q < p.child s := by
  have hle : ¬ p.child s < p.stem := by
    rw [lt_def, stem, child, append_lt_append_iff]
    exact not_append_lt ['/'] s.toList
  exact Std.lt_of_lt_of_le h (Std.not_lt.1 hle)

/-- What stands between a path and everything below it lies beside the path. -/
theorem isWithin_eq_false_of_between (hlt : p < q) (hstem : q < p.stem) :
    q.isWithin p = false := by
  rw [Bool.eq_false_iff]
  intro hwithin
  rcases isWithin_iff.1 hwithin with rfl | ⟨s, -, rfl⟩
  · exact List.lt_irrefl _ hlt
  · exact List.lt_irrefl _ (lt_child_of_lt_stem hstem s)

end Path

namespace Tree

variable {t : Tree} {p q : Path}

/-! ## The scan -/

theorem range_eq_filter (t : Tree) (p : Path) :
    t.range p = t.entries.filter (·.1.startsWith p) := by
  refine Table.entries_ext (t.range_sorted p) (t.sorted.filter _) fun e => ?_
  rw [mem_range_iff, List.mem_filter]

theorem subtree_eq_filter (t : Tree) (p : Path) :
    t.subtree p = t.entries.filter (·.1.isWithin p) := by
  rw [subtree, range_eq_filter, List.filter_filter]
  refine List.filter_congr fun e _ => ?_
  rw [Bool.and_eq_left_iff_imp]
  exact Path.startsWith_of_isWithin

/-! ## The removal -/

/-- Takes out the entries with the given keys, one after the other: what there was, and what is
left. -/
def takeOut (t : Tree) : List Path → List (Path × Node) × Tree
  | [] => ([], t)
  | k :: ks =>
    let (taken, left) := takeOut (t.erase k) ks
    match t.get? k with
    | some node => ((k, node) :: taken, left)
    | none => (taken, left)

/-- Entries with different keys do not get in each other's way. -/
theorem takeOut_map_fst {l : List (Path × Node)} (hl : (l.map (·.1)).Nodup)
    (hmem : ∀ e ∈ l, e ∈ t.entries) :
    t.takeOut (l.map (·.1)) = (l, l.foldl (fun t e => t.erase e.1) t) := by
  induction l generalizing t with
  | nil => rfl
  | cons e l ih =>
    rw [List.map_cons, List.nodup_cons] at hl
    have hget : t.get? e.1 = some e.2 := Table.get?_eq_some_iff.2 (hmem e List.mem_cons_self)
    have hrest : ∀ x ∈ l, x ∈ (t.erase e.1).entries := by
      intro x hx
      have hne : x.1 ≠ e.1 := fun heq => hl.1 (heq ▸ List.mem_map_of_mem hx)
      exact List.mem_filter.2 ⟨hmem x (List.mem_cons_of_mem e hx), decide_eq_true hne⟩
    rw [List.map_cons, takeOut, ih hl.2 hrest, hget]
    rfl

theorem takeOut_subtree (t : Tree) (p : Path) :
    t.takeOut ((t.subtree p).map (·.1)) = (t.subtree p, t.prune p) := by
  refine takeOut_map_fst ?_ fun e he => (mem_subtree_iff.1 he).1
  have hsub : ((t.subtree p).map (·.1)).Sublist t.keys := by
    rw [subtree_eq_filter]
    exact List.filter_sublist.map _
  exact t.keys_nodup.sublist hsub

theorem prune_eq_filter (t : Tree) (p : Path) : t.prune p = t.filter (!·.1.isWithin p) := by
  refine Table.ext_get? fun q => ?_
  have hfilter := Table.lookup_filter_key (fun k => !k.isWithin p) q t.entries
  rw [get?_prune, Table.get?, Table.get?, Table.filter, hfilter]
  cases q.isWithin p with
  | true => rfl
  | false => rfl

/-! ## What is taken and what stays -/

/-- A key between the path and what lies below it is passed by. -/
theorem range_split (hlt : p < q) (hstem : q < p.stem) {node : Node}
    (hmem : (q, node) ∈ t.entries) : ∃ passed ahead, t.range p = passed ++ (q, node) :: ahead ∧
      ∀ e ∈ t.subtree p, e.1 ≠ p → e ∈ ahead := by
  obtain ⟨c, rest, -, hq⟩ := Path.between_stem_iff.1 ⟨hlt, hstem⟩
  have hrange : (q, node) ∈ t.range p :=
    mem_range_iff.2 ⟨hmem, Path.startsWith_iff.2 ⟨c :: rest, hq⟩⟩
  obtain ⟨passed, ahead, hsplit⟩ := List.append_of_mem hrange
  refine ⟨passed, ahead, hsplit, fun e he hne => ?_⟩
  have hsorted := t.range_sorted p
  have hscanned := (List.mem_filter.1 he).1
  obtain ⟨s, -, hs⟩ := (Path.isWithin_iff.1 (mem_subtree_iff.1 he).2).resolve_left hne
  have hafter : q < e.1 := hs ▸ Path.lt_child_of_lt_stem hstem s
  rw [hsplit, List.pairwise_append] at hsorted
  rw [hsplit, List.mem_append, List.mem_cons] at hscanned
  rcases hscanned with hpassed | rfl | hahead
  · have hbefore := hsorted.2.2 e hpassed _ List.mem_cons_self
    exact absurd hafter (List.lt_asymm hbefore)
  · exact absurd hafter (List.lt_irrefl _)
  · exact hahead

/-- Taking out the keys that the scan finds gives the entries within the path, in the order of their
keys, and leaves all others as they are, whatever keys there are. The keys between the path and what
lies below it are the path followed by a character before the separator; the scan comes to them,
passes them by and goes on to everything below the path, and they stay. -/
theorem takes_out_exactly_the_subtree (t : Tree) (p : Path) :
    t.takeOut ((t.subtree p).map (·.1)) = (t.subtree p, t.prune p) ∧
    t.subtree p = t.entries.filter (·.1.isWithin p) ∧ (t.subtree p).Pairwise (·.1 < ·.1) ∧
    (t.prune p).entries = t.entries.filter (!·.1.isWithin p) ∧
    (∀ q, (t.prune p).get? q = if q.isWithin p then none else t.get? q) ∧
    (∀ q, p < q ∧ q < p.stem ↔ ∃ c rest, c < '/' ∧ q.chars = p.chars ++ c :: rest) ∧
    ∀ q node, p < q → q < p.stem → (q, node) ∈ t.entries →
      (∃ passed ahead, t.range p = passed ++ (q, node) :: ahead ∧
        ∀ e ∈ t.subtree p, e.1 ≠ p → e ∈ ahead) ∧
      (q, node) ∉ t.subtree p ∧ (t.prune p).get? q = some node := by
  refine ⟨t.takeOut_subtree p, t.subtree_eq_filter p, t.subtree_sorted p, ?_, t.get?_prune p,
    fun q => Path.between_stem_iff, ?_⟩
  · rw [prune_eq_filter]
    rfl
  · intro q node hlt hstem hmem
    have hbeside := Path.isWithin_eq_false_of_between hlt hstem
    refine ⟨range_split hlt hstem hmem, fun hsubtree => ?_, ?_⟩
    · have hwithin := (mem_subtree_iff.1 hsubtree).2
      rw [hbeside] at hwithin
      cases hwithin
    · rw [get?_prune, hbeside, if_neg Bool.false_ne_true]
      exact Table.get?_eq_some_iff.2 hmem

/-- Two keys stand between `/a` and what lies below it, and neither hides `/a/b` nor is taken. -/
theorem takes_out_exactly_the_subtree_siblings :
    let p := Path.ofString "/a"
    let blank := Path.ofString "/a b"
    let hyphen := Path.ofString "/a-x"
    let below := Path.ofString "/a/b"
    let beside := Path.ofString "/ab"
    let t : Tree := .ofList ([beside, below, hyphen, blank, p].map (·, .bare))
    t.keys = [p, blank, hyphen, below, beside] ∧ p < hyphen ∧ hyphen < p.stem ∧
    (hyphen, .bare) ∈ t.entries ∧
    t.takeOut [p, below] = ([(p, .bare), (below, .bare)], t.prune p) ∧
    (t.prune p).keys = [blank, hyphen, beside] ∧
    (∃ passed ahead, t.range p = passed ++ (hyphen, .bare) :: ahead ∧ (below, .bare) ∈ ahead) ∧
    (t.prune p).get? hyphen = some .bare := by
  intro p blank hyphen below beside t
  obtain ⟨htake, hsubtree, -, hprune, -, -, hbetween⟩ := takes_out_exactly_the_subtree t p
  have hwithin : t.subtree p = [(p, .bare), (below, .bare)] := hsubtree.trans (by decide)
  have hlt : p < hyphen := by decide
  have hstem : hyphen < p.stem := by decide
  have hmem : (hyphen, .bare) ∈ t.entries := by decide
  obtain ⟨⟨passed, ahead, hsplit, hahead⟩, -, hstays⟩ := hbetween hyphen .bare hlt hstem hmem
  rw [hwithin] at htake hahead
  refine ⟨by decide, hlt, hstem, hmem, htake, ?_, ⟨passed, ahead, hsplit, ?_⟩, hstays⟩
  · rw [Table.keys, hprune]
    decide
  · exact hahead _ (by simp) (by decide)

end Tree

end Graft
