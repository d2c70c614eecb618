import Graft.Proofs.FirstError
import Graft.Proofs.Catalog.History
import Graft.Proofs.Repository.Search
import Mathlib.Data.List.TakeDrop

/-!
# What a list of queries is answered

Queries are read before any of them is asked, and an answer is all that they find or nothing. So of
everything that may be wrong with some queries, the first one without a bar comes first, wherever it
stands. After that comes the first one that the repository refuses (`declaring_all_or_nothing`).
-/

namespace Graft

/-! ## Reading a query -/

namespace Query

variable {text : String} {q : Query}

/-- The first bar of the text stands between the language and the body of `q`, with or without
blanks at their ends. -/
def ReadsAs (text : String) (q : Query) : Prop :=
  ∃ language body, text.toList = language ++ '|' :: body ∧ '|' ∉ language ∧
    q = ⟨String.ofList (Text.trim language), String.ofList (Text.trim body)⟩

theorem span_append_bar {language : List Char} (hlanguage : '|' ∉ language) (rest : List Char) :
    (language ++ rest).span (· ≠ '|') =
      (language ++ rest.takeWhile (· ≠ '|'), rest.dropWhile (· ≠ '|')) := by
  have hbefore : ∀ c ∈ language, decide (c ≠ '|') = true := by
    intro c hc
    rw [decide_eq_true_eq]
    rintro rfl
    exact hlanguage hc
  rw [List.span_eq_takeWhile_dropWhile, List.takeWhile_append_of_pos hbefore,
    List.dropWhile_append_of_pos hbefore]

theorem parse_of_bar {language body : List Char} (htext : text.toList = language ++ '|' :: body)
    (hlanguage : '|' ∉ language) : parse text =
      .ok ⟨String.ofList (Text.trim language), String.ofList (Text.trim body)⟩ := by
  rw [parse, htext, span_append_bar hlanguage]
  simp

theorem parse_of_no_bar (hbar : '|' ∉ text.toList) :
    parse text = .error (.malformedQuery text) := by
  have hspan := span_append_bar hbar []
  rw [List.append_nil] at hspan
  rw [parse, hspan]
  rfl

theorem parse_eq_ok_iff : parse text = .ok q ↔ ReadsAs text q := by
  constructor
  · intro h
    by_cases hbar : '|' ∈ text.toList
    · obtain ⟨language, body, htext, hlanguage⟩ := List.eq_append_cons_of_mem hbar
      rw [parse_of_bar htext hlanguage] at h
      exact ⟨language, body, htext, hlanguage, (Except.ok.inj h).symm⟩
    · rw [parse_of_no_bar hbar] at h
      cases h
  · rintro ⟨language, body, htext, hlanguage, rfl⟩
    exact parse_of_bar htext hlanguage

theorem exists_parse_iff : (∃ q, parse text = .ok q) ↔ '|' ∈ text.toList := by
  constructor
  · rintro ⟨q, h⟩
    obtain ⟨language, body, htext, -⟩ := parse_eq_ok_iff.1 h
    rw [htext]
    exact List.mem_append_right _ List.mem_cons_self
  · intro hbar
    obtain ⟨language, body, htext, hlanguage⟩ := List.eq_append_cons_of_mem hbar
    exact ⟨_, parse_of_bar htext hlanguage⟩

theorem parse_eq_error_iff {e : PassError} :
    parse text = .error e ↔ '|' ∉ text.toList ∧ e = .malformedQuery text := by
  constructor
  · intro h
    have hbar : '|' ∉ text.toList := by
      rw [← exists_parse_iff, h]
      rintro ⟨q, ⟨⟩⟩
    rw [parse_of_no_bar hbar] at h
    exact ⟨hbar, (Except.error.inj h).symm⟩
  · rintro ⟨hbar, rfl⟩
    exact parse_of_no_bar hbar

instance (text : String) (q : Query) : Decidable (ReadsAs text q) :=
  decidable_of_iff _ parse_eq_ok_iff

end Query

/-! ## Asking queries -/

namespace Repository

variable {r : Repository} {queries : List String} {text : String} {found : List Path}

theorem mapM_parse_eq_ok_iff {parsed : List Query} :
    queries.mapM Query.parse = .ok parsed ↔ List.Forall₂ Query.ReadsAs queries parsed := by
  simp only [mapM_eq_ok_iff, Query.parse_eq_ok_iff]

theorem searchAll_eq (r : Repository) (queries : List Query) : r.searchAll queries =
    match queries.mapM r.search with
    | .ok lists => .ok lists.flatten
    | .error e => .error (.repository e) := by
  induction queries with
  | nil => rfl
  | cons q queries ih =>
    rw [searchAll, List.mapM_cons, ih]
    cases r.search q with
    | error e => rfl
    | ok list =>
      cases queries.mapM r.search with
      | error e => rfl
      | ok lists => rfl

theorem declaring_eq (r : Repository) (queries : List String) : r.declaring queries =
    match queries.mapM Query.parse with
    | .ok parsed => r.searchAll parsed
    | .error e => .error e := by
  rw [declaring]
  cases queries.mapM Query.parse with
  | error e => rfl
  | ok parsed => rfl

/-- The first text without a bar is the error, whatever the repository would have answered. -/
theorem declaring_eq_malformed_iff : r.declaring queries = .error (.malformedQuery text) ↔
    ∃ before after, queries = before ++ text :: after ∧
      (∀ text' ∈ before, '|' ∈ text'.toList) ∧ '|' ∉ text.toList := by
  have hparse : r.declaring queries = .error (.malformedQuery text) ↔
      queries.mapM Query.parse = .error (.malformedQuery text) := by
    rw [declaring_eq]
    cases queries.mapM Query.parse with
    | error e => simp
    | ok parsed =>
      dsimp only
      rw [searchAll_eq]
      cases parsed.mapM r.search with
      | error e => simp
      | ok lists => simp
  rw [hparse, mapM_eq_error_iff]
  simp only [Query.exists_parse_iff, Query.parse_eq_error_iff, PassError.malformedQuery.injEq]
  constructor
  · rintro ⟨before, text', after, hsplit, hbefore, hbar, rfl⟩
    exact ⟨before, after, hsplit, hbefore, hbar⟩
  · rintro ⟨before, after, hsplit, hbefore, hbar⟩
    exact ⟨before, text, after, hsplit, hbefore, hbar, rfl⟩

/-- If all texts are queries, the first refusal is the error. -/
theorem declaring_eq_refused_iff {e : Error} : r.declaring queries = .error (.repository e) ↔
    ∃ before q after, List.Forall₂ Query.ReadsAs queries (before ++ q :: after) ∧
      (∀ q' ∈ before, ∃ list, r.search q' = .ok list) ∧ r.search q = .error e := by
  have hsearch : r.declaring queries = .error (.repository e) ↔
      ∃ parsed, queries.mapM Query.parse = .ok parsed ∧ parsed.mapM r.search = .error e := by
    rw [declaring_eq]
    cases hparse : queries.mapM Query.parse with
    | error e' =>
      obtain ⟨-, text, -, -, -, htext⟩ := mapM_eq_error_iff.1 hparse
      simp [(Query.parse_eq_error_iff.1 htext).2]
    | ok parsed =>
      dsimp only
      rw [searchAll_eq]
      cases hanswers : parsed.mapM r.search with
      | error e' => simp [hanswers]
      | ok lists => simp [hanswers]
  rw [hsearch]
  simp only [mapM_parse_eq_ok_iff, mapM_eq_error_iff]
  constructor
  · rintro ⟨parsed, hparsed, before, q, after, rfl, hbefore, hq⟩
    exact ⟨before, q, after, hparsed, hbefore, hq⟩
  · rintro ⟨before, q, after, hparsed, hbefore, hq⟩
    exact ⟨_, hparsed, before, q, after, rfl, hbefore, hq⟩

theorem declaring_eq_found_iff : r.declaring queries = .ok found ↔
    ∃ parsed lists, List.Forall₂ Query.ReadsAs queries parsed ∧
      List.Forall₂ (fun q list => r.search q = .ok list) parsed lists ∧ lists.flatten = found := by
  simp only [declaring_eq_ok_iff, mapM_parse_eq_ok_iff, searchAll_eq, ← mapM_eq_ok_iff]
  refine exists_congr fun parsed => ?_
  cases parsed.mapM r.search with
  | error e => simp
  | ok lists => simp

end Repository

/-- A pass fails exactly if its queries do, and then it has done nothing. -/
theorem Catalog.pass_fails_iff (c : Catalog) (r : Repository) (queries : List String)
    (stop : Nat → Bool) (e : PassError) :
    ((c.pass r queries stop).2 = .error e ↔ r.declaring queries = .error e) ∧
      ((c.pass r queries stop).2 = .error e → (c.pass r queries stop).1 = c) := by
  unfold pass
  cases r.declaring queries with
  | error e' => simp
  | ok found => simp

namespace Repository

/-- Some queries have a first text without a bar, or all of them are queries as they read and there
is a first one that the repository refuses, or everything is found, one list after the other. Which
of these is the case decides the answer, and a first text without a bar counts though a query before
it would be refused. A pass over queries that are not answered fails as they do, and leaves the
catalog and its board as they were. -/
theorem declaring_all_or_nothing (r : Repository) (queries : List String) :
    (∀ text, r.declaring queries = .error (.malformedQuery text) ↔
      ∃ before after, queries = before ++ text :: after ∧
        (∀ text' ∈ before, '|' ∈ text'.toList) ∧ '|' ∉ text.toList) ∧
    (∀ e, r.declaring queries = .error (.repository e) ↔
      ∃ before q after, List.Forall₂ Query.ReadsAs queries (before ++ q :: after) ∧
        (∀ q' ∈ before, ∃ list, r.search q' = .ok list) ∧ r.search q = .error e) ∧
    (∀ found, r.declaring queries = .ok found ↔
      ∃ parsed lists, List.Forall₂ Query.ReadsAs queries parsed ∧
        List.Forall₂ (fun q list => r.search q = .ok list) parsed lists ∧ lists.flatten = found) ∧
    ∀ (c : Catalog) stop e,
      ((c.pass r queries stop).2 = .error e ↔ r.declaring queries = .error e) ∧
      ((c.pass r queries stop).2 = .error e → (c.pass r queries stop).1 = c) :=
  ⟨fun _ => declaring_eq_malformed_iff, fun _ => declaring_eq_refused_iff,
    fun _ => declaring_eq_found_iff, fun c => c.pass_fails_iff r queries⟩

/-- The text without a bar is the error although the repository does not know the language before
it. Of two queries that would be refused the first one is, and what the query before it has found is
not registered. -/
theorem declaring_all_or_nothing_mixed :
    let r := (Repository.empty.transact [.declare (.ofString "/a") "/s" false false,
      .declare (.ofString "/b") "/t" true false]).1
    let c := Catalog.after [.register ⟨.ofString "/c", some "/u", false, false⟩]
    let refused := ["marker|superimpose", " sql | a|b ", "marker|"]
    r.declaring ["sql|a", "no bar", "nor here"] = .error (.malformedQuery "no bar") ∧
    r.declaring refused = .error (.repository (.unsupportedLanguage "sql")) ∧
    (c.pass r refused fun _ => false).1 = c ∧
    r.declaring ["marker|superimpose /b", "marker|superimpose"] =
      .ok (["/b", "/a", "/b"].map .ofString) := by
  intro r c refused
  obtain ⟨hmalformed, -⟩ := declaring_all_or_nothing r ["sql|a", "no bar", "nor here"]
  obtain ⟨-, hrefused, -, hpass⟩ := declaring_all_or_nothing r refused
  obtain ⟨-, -, hfound, -⟩ :=
    declaring_all_or_nothing r ["marker|superimpose /b", "marker|superimpose"]
  have hsearch : ∀ q ∈ [Query.mk "marker" "superimpose"], ∃ list, r.search q = .ok list := by
    intro q hq
    rw [List.mem_singleton.1 hq]
    exact ⟨["/a", "/b"].map .ofString, by decide⟩
  have hsql : r.declaring refused = .error (.repository (.unsupportedLanguage "sql")) :=
    (hrefused _).2 ⟨[⟨"marker", "superimpose"⟩], ⟨"sql", "a|b"⟩, [⟨"marker", ""⟩],
      by decide, hsearch, by decide⟩
  obtain ⟨hfails, hkeeps⟩ := hpass c (fun _ => false) (.repository (.unsupportedLanguage "sql"))
  refine ⟨(hmalformed "no bar").2 ⟨["sql|a"], ["nor here"], rfl, by decide, by decide⟩, hsql,
    hkeeps (hfails.2 hsql), (hfound _).2 ?_⟩
  exact ⟨[⟨"marker", "superimpose /b"⟩, ⟨"marker", "superimpose"⟩],
    [["/b"].map .ofString, ["/a", "/b"].map .ofString], by decide, by decide, by decide⟩

end Repository

end Graft
