import Graft.Proofs.FirstError
import Graft.Settings.Basic
import Mathlib.Data.List.Induction

/-!
# The paths to watch

The entries of both keys are taken one after the other, those of the misspelled key last. Each of them
has to be an absolute path, and the first that is none is the error (`watched_eq_error_iff`). The paths
to watch are the normal forms, each in the order of the place where it comes first
(`eq_eraseDups_iff`), so nothing is watched twice.
-/

namespace Graft

/-! ## First places -/

section FirstPlaces

variable {α : Type} [BEq α] [LawfulBEq α] {l m : List α}

theorem eraseDups_concat (l : List α) (a : α) :
    (l ++ [a]).eraseDups = if a ∈ l then l.eraseDups else l.eraseDups ++ [a] := by
  rw [List.eraseDups_append]
  split
  · next ha => simp [List.removeAll, ha]
  · next ha => simp [List.removeAll, List.eraseDups_cons, ha]

theorem eraseDups_sorted (l : List α) :
    l.eraseDups.Pairwise fun a b => l.idxOf a < l.idxOf b := by
  induction l using List.reverseRecOn with
  | nil => exact .nil
  | append_singleton l a ih =>
    -- what came before keeps its place, and it is before the new one
    have hold : ∀ b ∈ l.eraseDups, (l ++ [a]).idxOf b = l.idxOf b := fun b hb =>
      List.idxOf_append_of_mem (List.mem_eraseDups.1 hb)
    have hsorted : l.eraseDups.Pairwise fun b c => (l ++ [a]).idxOf b < (l ++ [a]).idxOf c := by
      refine ih.imp_of_mem fun hb hc hlt => ?_
      rwa [hold _ hb, hold _ hc]
    rw [eraseDups_concat]
    split
    · exact hsorted
    · next ha =>
      rw [List.pairwise_append]
      refine ⟨hsorted, List.pairwise_singleton _ a, fun b hb c hc => ?_⟩
      obtain rfl := List.mem_singleton.1 hc
      rw [hold b hb, List.idxOf_append_of_notMem ha]
      exact Nat.lt_add_right _ (List.idxOf_lt_length_iff.2 (List.mem_eraseDups.1 hb))

/-- A list without its repetitions is what has the same members, in the order of their first places. -/
theorem eq_eraseDups_iff : m = l.eraseDups ↔
    m.Pairwise (fun a b => l.idxOf a < l.idxOf b) ∧ ∀ a, a ∈ m ↔ a ∈ l := by
  have hnodup : ∀ {k : List α}, k.Pairwise (fun a b => l.idxOf a < l.idxOf b) → k.Nodup := by
    intro k hk
    refine hk.imp fun hlt heq => ?_
    rw [heq] at hlt
    exact Nat.lt_irrefl _ hlt
  constructor
  · rintro rfl
    exact ⟨eraseDups_sorted l, fun a => List.mem_eraseDups⟩
  · rintro ⟨hsorted, hmem⟩
    have hperm : m.Perm l.eraseDups := by
      rw [List.perm_ext_iff_of_nodup (hnodup hsorted) (hnodup (eraseDups_sorted l))]
      exact fun a => (hmem a).trans List.mem_eraseDups.symm
    refine hperm.eq_of_pairwise (fun a b _ _ hab hba => ?_) hsorted (eraseDups_sorted l)
    exact absurd hab (Nat.lt_asymm hba)

end FirstPlaces

namespace Settings

variable {s : Settings}

/-! ## Entries -/

theorem entryPath_eq_ok_iff {entry : Key × String} {p : Path} :
    entryPath entry = .ok p ↔ (Path.ofString entry.2).normalize? = some p := by
  rw [entryPath]
  cases (Path.ofString entry.2).normalize? with
  | none => simp
  | some q => simp

theorem entryPath_eq_error_iff {entry : Key × String} {error : EntryError} :
    entryPath entry = .error error ↔
      (Path.ofString entry.2).normalize? = none ∧ error = ⟨entry.1, entry.2⟩ := by
  rw [entryPath]
  cases (Path.ofString entry.2).normalize? with
  | none => simp [eq_comm]
  | some q => simp

theorem texts_entries (s : Settings) : s.entries.map (·.2) = s.observed ++ s.legacy.getD [] := by
  simp [entries, Function.comp_def]

/-! ## All of them -/

theorem watched_eq_ok_iff {watched : List Path} : s.watched = .ok watched ↔
    ∃ paths, List.Forall₂ (fun text p => (Path.ofString text).normalize? = some p)
      (s.observed ++ s.legacy.getD []) paths ∧ watched = paths.eraseDups := by
  rw [← texts_entries]
  simp only [List.forall₂_map_left_iff, ← entryPath_eq_ok_iff, ← mapM_eq_ok_iff]
  rw [Settings.watched]
  cases s.entries.mapM entryPath with
  | error error => simp [Except.map]
  | ok paths => simp [Except.map, eq_comm]

theorem watched_eq_error_iff {error : EntryError} : s.watched = .error error ↔
    ∃ before key text after, s.entries = before ++ (key, text) :: after ∧
      (∀ entry ∈ before, ∃ p, (Path.ofString entry.2).normalize? = some p) ∧
      (Path.ofString text).normalize? = none ∧ error = ⟨key, text⟩ := by
  have hwatched : s.watched = .error error ↔ s.entries.mapM entryPath = .error error := by
    rw [watched]
    cases s.entries.mapM entryPath with
    | error error' => simp [Except.map]
    | ok paths => simp [Except.map]
  rw [hwatched, mapM_eq_error_iff]
  simp only [entryPath_eq_ok_iff, entryPath_eq_error_iff, Prod.exists]

/-- An entry that is no absolute path makes all settings worthless. -/
theorem watched_fails_iff (s : Settings) : (∃ error, s.watched = .error error) ↔
    ∃ entry ∈ s.entries, (Path.ofString entry.2).normalize? = none := by
  have hentry : ∀ entry, (∃ error, entryPath entry = .error error) ↔
      (Path.ofString entry.2).normalize? = none := by
    simp [entryPath_eq_error_iff]
  simp only [← hentry]
  rw [← exists_mapM_eq_error_iff, watched]
  cases s.entries.mapM entryPath with
  | error error => exact iff_of_true ⟨error, rfl⟩ ⟨error, rfl⟩
  | ok paths =>
    constructor
    · rintro ⟨error, ⟨⟩⟩
    · rintro ⟨error, ⟨⟩⟩

theorem watched_succeeds_iff (s : Settings) : (∃ watched, s.watched = .ok watched) ↔
    ∀ text ∈ s.observed ++ s.legacy.getD [], ∃ p, (Path.ofString text).normalize? = some p := by
  have hfails := not_congr s.watched_fails_iff
  simp only [not_exists, not_and, ← Option.ne_none_iff_exists'] at hfails ⊢
  rw [← texts_entries, List.forall_mem_map, ← hfails]
  cases s.watched with
  | error error => simp
  | ok watched => simp

/-- The settings say what to watch exactly if each entry is an absolute path. Then the paths are the
normal forms of the entries, first those under the proper key and then those under the misspelled one:
all of them and nothing else, in the order of the places where they come first. Otherwise the error
names the first entry that is no absolute path, as it is written, and its key. There is one warning if
the misspelled key is set, whatever stands under it, and none if it is not. -/
theorem watched_at_first_places (s : Settings) :
    ((∃ watched, s.watched = .ok watched) ↔
      ∀ text ∈ s.observed ++ s.legacy.getD [], ∃ p, (Path.ofString text).normalize? = some p) ∧
    (∀ watched, s.watched = .ok watched ↔
      ∃ paths, List.Forall₂ (fun text p => (Path.ofString text).normalize? = some p)
          (s.observed ++ s.legacy.getD []) paths ∧
        watched.Pairwise (fun p q => paths.idxOf p < paths.idxOf q) ∧
        ∀ p, p ∈ watched ↔ p ∈ paths) ∧
    (∀ error, s.watched = .error error ↔
      ∃ before key text after,
        s.observed.map (Key.observed, ·) ++ (s.legacy.getD []).map (Key.legacy, ·) =
          before ++ (key, text) :: after ∧
        (∀ entry ∈ before, ∃ p, (Path.ofString entry.2).normalize? = some p) ∧
        (Path.ofString text).normalize? = none ∧ error = ⟨key, text⟩) ∧
    (s.legacy = none → s.warnings = []) ∧
    ∀ texts, s.legacy = some texts → s.warnings = [.deprecatedKey .legacy .observed] := by
  refine ⟨s.watched_succeeds_iff, fun watched => ?_, fun error => watched_eq_error_iff, ?_, ?_⟩
  · simp only [watched_eq_ok_iff, eq_eraseDups_iff]
  · intro hnone
    rw [warnings, hnone]
    rfl
  · intro texts hsome
    rw [warnings, hsome]
    rfl

/-- A path under both keys is watched once, at its place under the proper key. The misspelled key makes
a warning though it is empty, and an error if it holds what is no absolute path. -/
theorem watched_at_first_places_merged :
    let observed := ["/a/", " /b ", "/a"]
    let s := { standard with observed, legacy := some ["//b", "/c"] }
    let wrong := { s with legacy := some ["/d", "/d/..", "d"] }
    s.watched = .ok (["/a", "/b", "/c"].map .ofString) ∧
    wrong.watched = .error ⟨.legacy, "/d/.."⟩ ∧
    { s with legacy := none }.warnings = [] ∧
    { s with legacy := some [] }.warnings = [.deprecatedKey .legacy .observed] := by
  intro observed s wrong
  obtain ⟨-, hwatched, -⟩ := watched_at_first_places s
  obtain ⟨-, -, herror, -⟩ := watched_at_first_places wrong
  obtain ⟨-, -, -, hunset, -⟩ := watched_at_first_places { s with legacy := none }
  obtain ⟨-, -, -, -, hset⟩ := watched_at_first_places { s with legacy := some [] }
  refine ⟨(hwatched _).2 ⟨["/a", "/b", "/a", "/b", "/c"].map .ofString, by decide, by decide, ?_⟩,
    (herror _).2 ⟨[(.observed, "/a/"), (.observed, " /b "), (.observed, "/a"), (.legacy, "/d")],
      .legacy, "/d/..", [(.legacy, "d")], rfl, ?_, by decide, rfl⟩, hunset rfl, hset [] rfl⟩
  · intro p
    simp only [List.map_cons, List.map_nil, List.mem_cons, List.not_mem_nil, or_false]
    tauto
  · intro entry hentry
    rw [← Option.isSome_iff_exists]
    revert entry
    decide

end Settings

end Graft
