import Graft.Proofs.Repository.Search
import Graft.Proofs.Tree.Children

/-!
# What reads give

The children of a path are read from the range of what begins with its text and a separator, and a
search goes by the words of its body. Here both are told by what they give: the nodes whose parent the
path is, and the nodes that carry the tag within the scope, each once and in the order of their paths
(`reads_by_definition`). What a search asks for is said by cutting its body at the blanks
(`Query.Means`), one case for each way in which it can be refused.
-/

namespace Graft

/-! ## Words of a text -/

namespace Text

variable {cs word rest : List Char}

def IsVoid (cs : List Char) : Prop := ∀ c ∈ cs, isBlank c = true

/-- `word` is the first word of `cs`, and `rest` follows it. -/
def FirstWord (cs word rest : List Char) : Prop :=
  ∃ blanks, cs = blanks ++ (word ++ rest) ∧ IsVoid blanks ∧
    word ≠ [] ∧ (∀ c ∈ word, isBlank c = false) ∧ ∀ c ∈ rest.head?, isBlank c = true

/-- Whether a text is cut at its first word can be computed. -/
theorem firstWord_of_all (blanks : List Char) (hcut : cs = blanks ++ (word ++ rest))
    (hblanks : blanks.all isBlank = true) (hne : word ≠ [])
    (hword : word.all (!isBlank ·) = true) (hrest : rest.head?.all isBlank = true) :
    FirstWord cs word rest := by
  refine ⟨blanks, hcut, List.all_eq_true.1 hblanks, hne, by simpa using hword, fun c hc => ?_⟩
  rw [Option.mem_def.1 hc] at hrest
  exact hrest

theorem words_blank_cons {c : Char} (hc : isBlank c = true) (cs : List Char) :
    words (c :: cs) = words cs := by
  rw [words, List.splitOnP_cons_eq_if_modifyHead, if_pos hc]
  rfl

theorem words_append_of_isVoid {blanks : List Char} (h : IsVoid blanks) (cs : List Char) :
    words (blanks ++ cs) = words cs := by
  induction blanks with
  | nil => rfl
  | cons c blanks ih =>
    obtain ⟨hc, hblanks⟩ := List.forall_mem_cons.1 h
    rw [List.cons_append, words_blank_cons hc, ih hblanks]

theorem words_of_isVoid (h : IsVoid cs) : words cs = [] := by
  have hwords := words_append_of_isVoid h []
  rw [List.append_nil] at hwords
  exact hwords

theorem words_of_firstWord (h : FirstWord cs word rest) : words cs = word :: words rest := by
  obtain ⟨blanks, rfl, hblanks, hne, hword, hrest⟩ := h
  rw [words_append_of_isVoid hblanks]
  cases rest with
  | nil =>
    rw [List.append_nil, words, List.splitOnP_eq_singleton hword]
    simp [hne, words]
  | cons c rest =>
    have hc : isBlank c = true := hrest c rfl
    rw [words_blank_cons hc, words, List.splitOnP_append_cons_of_forall_mem hword c hc]
    simp [hne, words]

theorem isVoid_or_firstWord (cs : List Char) : IsVoid cs ∨ ∃ word rest, FirstWord cs word rest := by
  have hblanks : IsVoid (cs.takeWhile isBlank) := fun c hc => List.mem_takeWhile_imp hc
  have hsplit := List.takeWhile_append_dropWhile (p := isBlank) (l := cs)
  cases htail : cs.dropWhile isBlank with
  | nil =>
    left
    rw [htail, List.append_nil] at hsplit
    rwa [hsplit] at hblanks
  | cons c tail =>
    right
    have hc : isBlank c = false := by
      have hhead := List.head?_dropWhile_not isBlank cs
      rw [htail] at hhead
      simpa using hhead
    refine ⟨c :: tail.takeWhile (!isBlank ·), tail.dropWhile (!isBlank ·), cs.takeWhile isBlank,
      ?_, hblanks, List.cons_ne_nil _ _, ?_, ?_⟩
    · rw [List.cons_append, List.takeWhile_append_dropWhile, ← htail, hsplit]
    · rw [List.forall_mem_cons]
      refine ⟨hc, fun d hd => ?_⟩
      simpa using List.mem_takeWhile_imp hd
    · intro d hd
      have hhead := List.head?_dropWhile_not (!isBlank ·) tail
      rw [hd] at hhead
      simpa using hhead

end Text

/-! ## What a search asks for -/

namespace Query

open Repository

/-- What a search means: the tag and the scope that it asks for, or why it is refused. Of several
reasons the one given first counts. -/
inductive Means : Query → Except Repository.Error (String × Option Path) → Prop where
  | foreign {q : Query} : Text.trimmed q.language ≠ markerLanguage →
      Means q (.error (.unsupportedLanguage q.language))
  | untagged {q : Query} : Text.trimmed q.language = markerLanguage → Text.IsVoid q.body.toList →
      Means q (.error (.missingTag q.language))
  | misplaced {q : Query} {tag rest scope rest' : List Char} :
      Text.trimmed q.language = markerLanguage → Text.FirstWord q.body.toList tag rest →
      Text.FirstWord rest scope rest' → Path.normalize? ⟨scope⟩ = none →
      Means q (.error (.invalidScope q.language ⟨scope⟩))
  | everywhere {q : Query} {tag rest : List Char} :
      Text.trimmed q.language = markerLanguage → Text.FirstWord q.body.toList tag rest →
      Text.IsVoid rest → Means q (.ok (String.ofList tag, none))
  | within {q : Query} {tag rest scope rest' : List Char} {s : Path} :
      Text.trimmed q.language = markerLanguage → Text.FirstWord q.body.toList tag rest →
      Text.FirstWord rest scope rest' → Path.normalize? ⟨scope⟩ = some s →
      Means q (.ok (String.ofList tag, some s))

/-- Every search asks for something or is refused. -/
theorem exists_means (q : Query) : ∃ meaning, q.Means meaning := by
  by_cases hlanguage : Text.trimmed q.language = markerLanguage
  · rcases Text.isVoid_or_firstWord q.body.toList with hvoid | ⟨tag, rest, htag⟩
    · exact ⟨_, .untagged hlanguage hvoid⟩
    rcases Text.isVoid_or_firstWord rest with hvoid | ⟨scope, rest', hscope⟩
    · exact ⟨_, .everywhere hlanguage htag hvoid⟩
    cases hnormal : Path.normalize? ⟨scope⟩ with
    | none => exact ⟨_, .misplaced hlanguage htag hscope hnormal⟩
    | some s => exact ⟨_, .within hlanguage htag hscope hnormal⟩
  · exact ⟨_, .foreign hlanguage⟩

end Query

namespace Repository

variable {r : Repository} {q : Query}

theorem search_of_refused {e : Error} (h : q.Means (.error e)) : r.search q = .error e := by
  unfold search
  cases h with
  | foreign hlanguage => rw [if_pos hlanguage]
  | untagged hlanguage hvoid =>
    rw [if_neg (not_not_intro hlanguage), Text.words_of_isVoid hvoid]
  | misplaced hlanguage htag hscope hnormal =>
    rw [if_neg (not_not_intro hlanguage), Text.words_of_firstWord htag,
      Text.words_of_firstWord hscope]
    simp only [hnormal]

theorem search_of_asked (hr : r.failing = false) {tag : String} {scope : Option Path}
    (h : q.Means (.ok (tag, scope))) : r.search q = .ok (r.tagged tag scope) := by
  unfold search guardRead
  rw [hr]
  cases h with
  | everywhere hlanguage htag hvoid =>
    rw [if_neg (not_not_intro hlanguage), Text.words_of_firstWord htag, Text.words_of_isVoid hvoid]
    rfl
  | within hlanguage htag hscope hnormal =>
    rw [if_neg (not_not_intro hlanguage), Text.words_of_firstWord htag,
      Text.words_of_firstWord hscope]
    simp only [hnormal]
    rfl

/-! ## Order and members -/

theorem tagged_sorted (r : Repository) (tag : String) (scope : Option Path) :
    (r.tagged tag scope).Pairwise (· < ·) := by
  rw [tagged, List.pairwise_map]
  exact r.tree.sorted.filter _

theorem children_eq (hr : r.failing = false) (p : Path) :
    r.children p = .ok ((r.tree.children p).map fun e => ⟨e.1, e.2.properties⟩) := by
  rw [children, guardRead, hr]
  rfl

theorem mem_listed_iff {p : Path} (hp : p.chars ≠ []) {s : Stored} :
    s ∈ (r.tree.children p).map (fun e => (⟨e.1, e.2.properties⟩ : Stored)) ↔
      s.path.parent = some p ∧
        ∃ node, r.tree.get? s.path = some node ∧ node.properties = s.properties := by
  obtain ⟨k, properties⟩ := s
  simp only [List.mem_map, Tree.mem_children_iff, Path.parent_eq_some_iff, Table.get?_eq_some_iff,
    Stored.mk.injEq]
  constructor
  · rintro ⟨⟨k, node⟩, ⟨hentry, hchild⟩, rfl, rfl⟩
    exact ⟨⟨hp, hchild⟩, node, hentry, rfl⟩
  · rintro ⟨⟨-, hchild⟩, node, hentry, rfl⟩
    exact ⟨(k, node), ⟨hentry, hchild⟩, rfl, rfl⟩

/-- While reads succeed, the children of a nonempty path are the nodes whose parent it is, with their
properties. A search gives the nodes that carry the tag, and lie within the scope if it has one;
words after the scope do not count. Both come in strictly increasing order of their paths, so
nothing comes twice. A search that asks for nothing is refused, for the first reason there is. -/
theorem reads_by_definition (r : Repository) (hr : r.failing = false) :
    (∀ p : Path, p.chars ≠ [] → ∃ found, r.children p = .ok found ∧
      found.Pairwise (·.path < ·.path) ∧
      ∀ s, s ∈ found ↔ s.path.parent = some p ∧
        ∃ node, r.tree.get? s.path = some node ∧ node.properties = s.properties) ∧
    (∀ q : Query, ∃ meaning, q.Means meaning) ∧
    (∀ (q : Query) tag scope, q.Means (.ok (tag, scope)) → ∃ found, r.search q = .ok found ∧
      found.Pairwise (· < ·) ∧
      ∀ p, p ∈ found ↔
        ∃ node, r.tree.get? p = some node ∧ tag ∈ node.tags ∧ ∀ s ∈ scope, p.isWithin s = true) ∧
    ∀ (q : Query) e, q.Means (.error e) → r.search q = .error e := by
  refine ⟨fun p hp => ?_, Query.exists_means, fun q tag scope hq => ?_, fun q e => search_of_refused⟩
  · refine ⟨_, children_eq hr p, ?_, fun s => mem_listed_iff hp⟩
    rw [List.pairwise_map]
    exact r.tree.sorted.sublist (Tree.children_sublist r.tree p)
  · refine ⟨_, search_of_asked hr hq, tagged_sorted r tag scope, fun p => ?_⟩
    simp only [mem_tagged_iff, Option.all_eq_true, Option.mem_def]

/-- `/a-b` stands between `/a` and what is below it, and is neither a child nor in the scope. The scope
is normalized, and what follows it is not read. -/
theorem reads_by_definition_siblings :
    let r := (Repository.empty.transact [.addTag (.ofString "/a/x/y") "t",
      .addTag (.ofString "/a-b") "t", .setProperty (.ofString "/a/x") "k" (.flag true)]).1
    let q : Query := ⟨"\u2003marker ", " t\t/a// and more"⟩
    let refused : Query := ⟨"marker", "t a t"⟩
    r.failing = false ∧ (Path.ofString "/a").chars ≠ [] ∧
    (∃ found, r.children (.ofString "/a") = .ok found ∧
      found.map (·.path) = [.ofString "/a/x"] ∧ ⟨.ofString "/a-b", .empty⟩ ∉ found) ∧
    q.Means (.ok ("t", some (.ofString "/a"))) ∧
    (∃ found, r.search q = .ok found ∧ .ofString "/a/x/y" ∈ found ∧ .ofString "/a-b" ∉ found) ∧
    refused.Means (.error (.invalidScope "marker" (.ofString "a"))) ∧
    r.search refused = .error (.invalidScope "marker" (.ofString "a")) := by
  intro r q refused
  have hfirst : Text.FirstWord q.body.toList ['t'] "\t/a// and more".toList :=
    Text.firstWord_of_all [' '] (by decide) rfl (by decide) rfl rfl
  have hsecond : Text.FirstWord "\t/a// and more".toList "/a//".toList " and more".toList :=
    Text.firstWord_of_all ['\t'] (by decide) rfl (by decide) rfl rfl
  have hmeans : q.Means (.ok ("t", some (.ofString "/a"))) :=
    .within (by decide) hfirst hsecond (by decide)
  have hfirst' : Text.FirstWord refused.body.toList ['t'] " a t".toList :=
    Text.firstWord_of_all [] (by decide) rfl (by decide) rfl rfl
  have hsecond' : Text.FirstWord " a t".toList ['a'] " t".toList :=
    Text.firstWord_of_all [' '] (by decide) rfl (by decide) rfl rfl
  have hrefused : refused.Means (.error (.invalidScope "marker" (.ofString "a"))) :=
    .misplaced (by decide) hfirst' hsecond' (by decide)
  obtain ⟨hchildren, -, hsearch, hrefuses⟩ := reads_by_definition r rfl
  obtain ⟨below, hbelow, -, hmem⟩ := hchildren (.ofString "/a") (by decide)
  obtain ⟨found, hfound, -, htagged⟩ := hsearch q "t" _ hmeans
  have hlist : r.children (.ofString "/a") =
      .ok [⟨.ofString "/a/x", (Table.empty.insert "k" (.flag true))⟩] := by decide
  refine ⟨rfl, by decide, ⟨below, hbelow, ?_, ?_⟩, hmeans, ⟨found, hfound, ?_, ?_⟩, hrefused,
    hrefuses refused _ hrefused⟩
  · obtain rfl := Except.ok.inj (hbelow.symm.trans hlist)
    rfl
  · rw [hmem]
    exact fun h => absurd h.1 (by decide)
  · exact (htagged _).2 ⟨⟨["t"], .empty⟩, by decide, by decide, by decide⟩
  · rw [htagged]
    rintro ⟨-, -, -, hscope⟩
    exact absurd (hscope _ rfl) (by decide)

end Repository

end Graft
