import Graft.Discovery
import Graft.Proofs.Path.Normal
import Graft.Table.Lemmas

/-!
# What searches find

A search finds tagged nodes and nothing else. The query that asks for the declarations below a path
without blanks reads as it is meant to, and finds every declaring node there
(`searchAll_declarations`).
-/

namespace Graft

/-! ## Splitting -/

namespace Text

theorem words_append {cs ds : List Char} (hcs : cs.any isBlank = false)
    (hds : ds.any isBlank = false) (hne : cs ≠ []) (hne' : ds ≠ []) :
    words (cs ++ ' ' :: ds) = [cs, ds] := by
  have hunblank : ∀ {l : List Char}, l.any isBlank = false → ∀ c ∈ l, isBlank c = false :=
    fun hl c hc => Bool.not_eq_true _ ▸ List.any_eq_false.1 hl c hc
  rw [words, List.splitOnP_append_cons_of_forall_mem (hunblank hcs) ' ' (by decide),
    List.splitOnP_eq_singleton (hunblank hds)]
  simp [hne, hne']

end Text

/-- A path in normal form that is one word of a query. -/
structure Path.IsWord (p : Path) : Prop where
  normal : p.isNormal = true
  unblank : p.chars.any Text.isBlank = false

theorem Path.IsWord.chars_ne_nil {p : Path} (h : p.IsWord) : p.chars ≠ [] :=
  chars_ne_nil_of_isNormal h.normal

namespace Repository

variable {r : Repository}

/-! ## Found nodes -/

/-- What has a tag is found, at or below the scope if there is one. -/
theorem mem_tagged_iff {tag : String} {scope : Option Path} {p : Path} :
    p ∈ r.tagged tag scope ↔
      ∃ node, r.tree.get? p = some node ∧ tag ∈ node.tags ∧ scope.all p.isWithin = true := by
  simp only [tagged, List.mem_map, List.mem_filter, Bool.and_eq_true, List.contains_iff_mem,
    Table.get?_eq_some_iff]
  constructor
  · rintro ⟨⟨p, node⟩, ⟨hentry, htag, hscope⟩, rfl⟩
    exact ⟨node, hentry, htag, hscope⟩
  · rintro ⟨node, hentry, htag, hscope⟩
    exact ⟨(p, node), ⟨hentry, htag, hscope⟩, rfl⟩

theorem get?_of_mem_tagged {tag : String} {scope : Option Path} {p : Path}
    (h : p ∈ r.tagged tag scope) : ∃ node, r.tree.get? p = some node ∧ node ≠ .bare := by
  obtain ⟨node, hnode, htag, -⟩ := mem_tagged_iff.1 h
  refine ⟨node, hnode, ?_⟩
  rintro rfl
  exact absurd htag List.not_mem_nil

/-- A search that succeeds gives nodes with some tag. -/
theorem search_eq_tagged {query : Query} {found : List Path} (h : r.search query = .ok found) :
    ∃ tag scope, found = r.tagged tag scope := by
  have hguard : ∀ {p : Path} {tag : String} {scope : Option Path},
      (do r.guardRead p; return r.tagged tag scope : Except Error (List Path)) = .ok found →
      found = r.tagged tag scope := by
    intro p tag scope hok
    unfold guardRead at hok
    split at hok
    · cases hok
    · exact (Except.ok.inj hok).symm
  unfold search at h
  split at h
  · cases h
  split at h
  · cases h
  · next tag _ => exact ⟨_, _, hguard h⟩
  · split at h
    · cases h
    · exact ⟨_, _, hguard h⟩

theorem searchAll_cons_eq_ok_iff {query : Query} {queries : List Query} {found : List Path} :
    r.searchAll (query :: queries) = .ok found ↔ ∃ first rest,
      r.search query = .ok first ∧ r.searchAll queries = .ok rest ∧ first ++ rest = found := by
  rw [searchAll]
  cases r.search query with
  | error e => simp
  | ok first =>
    cases r.searchAll queries with
    | error e => simp [Except.map]
    | ok rest => simp [Except.map]

theorem get?_of_mem_searchAll {queries : List Query} {found : List Path}
    (h : r.searchAll queries = .ok found) {p : Path} (hp : p ∈ found) :
    ∃ node, r.tree.get? p = some node ∧ node ≠ .bare := by
  induction queries generalizing found with
  | nil =>
    obtain rfl := Except.ok.inj h
    exact absurd hp List.not_mem_nil
  | cons query queries ih =>
    obtain ⟨first, rest, hfirst, hrest, rfl⟩ := searchAll_cons_eq_ok_iff.1 h
    rcases List.mem_append.1 hp with hp | hp
    · obtain ⟨tag, scope, rfl⟩ := search_eq_tagged hfirst
      exact get?_of_mem_tagged hp
    · exact ih hrest hp

theorem declaring_eq_ok_iff {queries : List String} {found : List Path} :
    r.declaring queries = .ok found ↔
      ∃ parsed, queries.mapM Query.parse = .ok parsed ∧ r.searchAll parsed = .ok found := by
  rw [declaring]
  cases queries.mapM Query.parse with
  | error e => simp [bind, Except.bind]
  | ok parsed => simp [bind, Except.bind]

theorem declaring_cons_eq_ok_iff {text : String} {queries : List String} {found : List Path} :
    r.declaring (text :: queries) = .ok found ↔ ∃ query first rest, Query.parse text = .ok query ∧
      r.search query = .ok first ∧ r.declaring queries = .ok rest ∧ first ++ rest = found := by
  simp only [declaring_eq_ok_iff, List.mapM_cons]
  cases Query.parse text with
  | error e => simp [bind, Except.bind]
  | ok query =>
    cases queries.mapM Query.parse with
    | error e => simp [bind, Except.bind]
    | ok parsed => simp [bind, Except.bind, pure, Except.pure, searchAll_cons_eq_ok_iff]

/-- Queries are answered one after the other, each as if it were the only one. -/
theorem declaring_eq_flatten {queries : List String} {found : List Path}
    (h : r.declaring queries = .ok found) :
    ∃ lists, List.Forall₂ (fun query list => r.declaring [query] = .ok list) queries lists ∧
      lists.flatten = found := by
  induction queries generalizing found with
  | nil =>
    obtain rfl := Except.ok.inj h
    exact ⟨[], .nil, rfl⟩
  | cons text queries ih =>
    obtain ⟨query, first, rest, hquery, hfirst, hrest, rfl⟩ := declaring_cons_eq_ok_iff.1 h
    have hone : r.declaring [text] = .ok first :=
      declaring_cons_eq_ok_iff.2 ⟨query, first, [], hquery, hfirst, rfl, List.append_nil first⟩
    obtain ⟨lists, hlists, rfl⟩ := ih hrest
    exact ⟨first :: lists, .cons hone hlists, rfl⟩

/-- What is found is a node of the tree that has a tag. -/
theorem get?_of_mem_declaring {queries : List String} {found : List Path}
    (h : r.declaring queries = .ok found) {p : Path} (hp : p ∈ found) :
    ∃ node, r.tree.get? p = some node ∧ node ≠ .bare := by
  obtain ⟨parsed, -, hfound⟩ := declaring_eq_ok_iff.1 h
  exact get?_of_mem_searchAll hfound hp

theorem contains_of_mem_declaring {queries : List String} {found : List Path}
    (h : r.declaring queries = .ok found) {p : Path} (hp : p ∈ found) :
    r.tree.contains p = true := by
  obtain ⟨node, hnode, -⟩ := get?_of_mem_declaring h hp
  rw [Table.contains, hnode]
  rfl

/-! ## The search for declarations -/

def declarationsQuery (p : Path) : String := "marker|superimpose " ++ toString p

/-- The nodes at or below `p` that carry the tag of a declaring node. -/
def declarations (r : Repository) (p : Path) : List Path := r.tagged Declaration.marker (some p)

section Declarations

variable {p : Path}

theorem toList_toString (p : Path) : (toString p).toList = p.chars := String.toList_ofList

theorem toList_query_body (p : Path) :
    ("superimpose " ++ toString p).toList = "superimpose".toList ++ ' ' :: p.chars := by
  have hstart : "superimpose ".toList = "superimpose".toList ++ [' '] := by decide
  rw [String.toList_append, hstart, toList_toString, List.append_assoc, List.singleton_append]

theorem parse_declarationsQuery (hp : p.IsWord) :
    Query.parse (declarationsQuery p) = .ok ⟨markerLanguage, "superimpose " ++ toString p⟩ := by
  obtain ⟨front, last, hchars⟩ : ∃ front last, p.chars = front ++ [last] :=
    ⟨_, _, (List.dropLast_concat_getLast hp.chars_ne_nil).symm⟩
  have htext : (declarationsQuery p).toList =
      "marker".toList ++ '|' :: ("superimpose".toList ++ ' ' :: p.chars) := by
    have hstart : "marker|superimpose ".toList =
        "marker".toList ++ '|' :: ("superimpose".toList ++ [' ']) := by decide
    show ("marker|superimpose " ++ toString p).toList = _
    rw [String.toList_append, hstart, toList_toString, List.append_assoc, List.cons_append,
      List.append_assoc, List.singleton_append]
  have hspan : ("marker".toList ++ '|' :: ("superimpose".toList ++ ' ' :: p.chars)).span (· ≠ '|') =
      ("marker".toList, '|' :: ("superimpose".toList ++ ' ' :: p.chars)) := rfl
  have hbody : Text.trim ("superimpose".toList ++ ' ' :: p.chars) =
      "superimpose".toList ++ ' ' :: p.chars := by
    have hlast : Text.isBlank last = false := by
      have hany := hp.unblank
      rw [hchars, List.any_append, Bool.or_eq_false_iff] at hany
      simpa using hany.2
    have htrim := Text.trim_eq_self (c := 's') (d := last) (by decide) hlast
      ("uperimpose".toList ++ ' ' :: front)
    rw [hchars]
    simpa using htrim
  unfold Query.parse
  rw [htext, hspan]
  simp only [hbody]
  rw [← toList_query_body, String.ofList_toList]
  rfl

theorem search_declarations (hr : r.failing = false) (hp : p.IsWord) :
    r.search ⟨markerLanguage, "superimpose " ++ toString p⟩ = .ok (r.declarations p) := by
  have hwords : Text.words ("superimpose " ++ toString p).toList = ["superimpose".toList, p.chars] := by
    rw [toList_query_body]
    exact Text.words_append (by decide) hp.unblank (by decide) hp.chars_ne_nil
  have hlanguage : Text.trimmed markerLanguage = markerLanguage := rfl
  have hscope : Path.normalize? ⟨p.chars⟩ = some p := Path.isNormal_iff.1 hp.normal
  unfold search
  rw [if_neg (by simp [hlanguage]), hwords]
  simp only [hscope, guardRead, hr]
  rfl

/-- The query for declarations finds the tagged nodes at or below its path. -/
theorem searchAll_declarations (hr : r.failing = false) (hp : p.IsWord) :
    ∃ query, [declarationsQuery p].mapM Query.parse = .ok [query] ∧
      r.searchAll [query] = .ok (r.declarations p) := by
  refine ⟨⟨markerLanguage, "superimpose " ++ toString p⟩, ?_, ?_⟩
  · rw [List.mapM_cons, parse_declarationsQuery hp]
    rfl
  · rw [searchAll, search_declarations hr hp]
    simp [searchAll, Except.map]

theorem declaring_declarations (hr : r.failing = false) (hp : p.IsWord) :
    r.declaring [declarationsQuery p] = .ok (r.declarations p) := by
  obtain ⟨query, hparse, hsearch⟩ := searchAll_declarations hr hp
  rw [declaring, hparse]
  exact hsearch

theorem mem_declarations_iff {q : Path} :
    q ∈ r.declarations p ↔
      ∃ node, r.tree.get? q = some node ∧ Declaration.marker ∈ node.tags ∧ q.isWithin p = true :=
  mem_tagged_iff

end Declarations

end Repository

end Graft
