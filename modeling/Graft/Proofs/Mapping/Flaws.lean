import Graft.Declaration
import Graft.Proofs.Mapping.Inverse
import Mathlib.Logic.ExistsUnique

/-!
# The flaws of a declaration

A declaration is checked in seven respects. Each check is about the declaration alone: it fails or
not whatever comes of the others, and it finds a flaw of its own (`Declaration.Fails`). A
declaration that passes them all is a mapping, between two trees that have nothing in common. Of any
other, the flaw is told that the first of its failing checks finds (`Declaration.mapping_exact`).
-/

namespace Graft

theorem Mapping.ends_apart (m : Mapping) :
    m.root ≠ m.source ∧ m.source.isBelow m.root = false ∧ m.root.isBelow m.source = false := by
  have hin := m.source_outside
  have hout := m.root_outside
  rw [Path.isWithin, Bool.or_eq_false_iff] at hin hout
  exact ⟨by simpa using hout.1, hin.2, hout.2⟩

theorem Path.trim_ne_nil_of_normalize? {p q : Path} (h : p.normalize? = some q) :
    Text.trim p.chars ≠ [] := by
  intro hblank
  rw [normalize?, hblank] at h
  cases h

namespace Declaration

variable {d : Declaration} {flaw flaw' : Flaw} {m : Mapping} {root r s : Path} {text : String}

/-! ## The checks -/

inductive Check where
  | parent
  | blankSource
  | root
  | source
  | itself
  | sourceInside
  | rootInside
deriving DecidableEq

def Check.all : List Check :=
  [.parent, .blankSource, .root, .source, .itself, .sourceInside, .rootInside]

/-- The declaration's root and its source have the normal forms `r` and `s`. -/
def HasEnds (d : Declaration) (r s : Path) : Prop :=
  ∃ root text, d.root? = some root ∧ d.source = some text ∧
    root.normalize? = some r ∧ (Path.ofString text).normalize? = some s

/-- The declaration fails the check, which finds the flaw. No check builds on another one. -/
def Fails (d : Declaration) : Check → Flaw → Prop
  | .parent, flaw =>
    d.onParent = true ∧ (d.node.normalize?.getD d.node).parent = none ∧ flaw = .noParent d.node
  | .blankSource, flaw =>
    (∀ text, d.source = some text → Text.trim text.toList = []) ∧
      ∃ root, d.root? = some root ∧ flaw = .blankSource root
  | .root, flaw => ∃ root, d.root? = some root ∧ root.normalize? = none ∧ flaw = .invalidPath root
  | .source, flaw => ∃ text, d.source = some text ∧ (Path.ofString text).normalize? = none ∧
      flaw = .invalidPath (.ofString text)
  | .itself, flaw => ∃ r, d.HasEnds r r ∧ flaw = .pointsToItself r
  | .sourceInside, flaw =>
    ∃ r s, d.HasEnds r s ∧ s.isBelow r = true ∧ flaw = .sourceInsideRoot r s
  | .rootInside, flaw =>
    ∃ r s, d.HasEnds r s ∧ r.isBelow s = true ∧ flaw = .rootInsideSource r s

def Passes (d : Declaration) (check : Check) : Prop := ∀ flaw, ¬ d.Fails check flaw

/-- The flaw that the first of the failing checks finds. -/
def FirstFlaw (d : Declaration) (flaw : Flaw) : Prop :=
  ∃ before check after, Check.all = before ++ check :: after ∧ d.Fails check flaw ∧
    ∀ earlier ∈ before, d.Passes earlier

theorem root?_eq_none_iff : d.root? = none ↔
    d.onParent = true ∧ (d.node.normalize?.getD d.node).parent = none := by
  rw [root?]
  split
  · next h => simp [h]
  · next h => simp [h]

/-! ## A check finds one flaw at most -/

theorem HasEnds.unique {r' s' : Path} (h : d.HasEnds r s) (h' : d.HasEnds r' s') :
    r = r' ∧ s = s' := by
  obtain ⟨root, text, hroot, hsource, hr, hs⟩ := h
  obtain ⟨root', text', hroot', hsource', hr', hs'⟩ := h'
  obtain rfl := Option.some.inj (hroot.symm.trans hroot')
  obtain rfl := Option.some.inj (hsource.symm.trans hsource')
  exact ⟨Option.some.inj (hr.symm.trans hr'), Option.some.inj (hs.symm.trans hs')⟩

theorem Fails.unique {check : Check} (h : d.Fails check flaw) (h' : d.Fails check flaw') :
    flaw = flaw' := by
  cases check with
  | parent => exact h.2.2.trans h'.2.2.symm
  | blankSource =>
    obtain ⟨-, root, hroot, rfl⟩ := h
    obtain ⟨-, root', hroot', rfl⟩ := h'
    rw [Option.some.inj (hroot.symm.trans hroot')]
  | root =>
    obtain ⟨root, hroot, -, rfl⟩ := h
    obtain ⟨root', hroot', -, rfl⟩ := h'
    rw [Option.some.inj (hroot.symm.trans hroot')]
  | source =>
    obtain ⟨text, hsource, -, rfl⟩ := h
    obtain ⟨text', hsource', -, rfl⟩ := h'
    rw [Option.some.inj (hsource.symm.trans hsource')]
  | itself =>
    obtain ⟨r, hends, rfl⟩ := h
    obtain ⟨r', hends', rfl⟩ := h'
    rw [(hends.unique hends').1]
  | sourceInside =>
    obtain ⟨r, s, hends, -, rfl⟩ := h
    obtain ⟨r', s', hends', -, rfl⟩ := h'
    obtain ⟨rfl, rfl⟩ := hends.unique hends'
    rfl
  | rootInside =>
    obtain ⟨r, s, hends, -, rfl⟩ := h
    obtain ⟨r', s', hends', -, rfl⟩ := h'
    obtain ⟨rfl, rfl⟩ := hends.unique hends'
    rfl

theorem FirstFlaw.unique (h : d.FirstFlaw flaw) (h' : d.FirstFlaw flaw') : flaw = flaw' := by
  classical
  have hfind : ∀ {before check after f}, Check.all = before ++ check :: after → d.Fails check f →
      (∀ earlier ∈ before, d.Passes earlier) →
      Check.all.find? (fun c => ∃ f, d.Fails c f) = some check := by
    intro before check after f hall hfails hbefore
    refine List.find?_eq_some_iff_append.2 ⟨by simpa using ⟨f, hfails⟩, before, after, hall, ?_⟩
    simpa [Passes] using hbefore
  obtain ⟨before, check, after, hall, hfails, hbefore⟩ := h
  obtain ⟨before', check', after', hall', hfails', hbefore'⟩ := h'
  obtain rfl : check = check' :=
    Option.some.inj ((hfind hall hfails hbefore).symm.trans (hfind hall' hfails' hbefore'))
  exact hfails.unique hfails'

/-! ## When a check is passed -/

theorem passes_parent (hroot : d.root? = some root) : d.Passes .parent := by
  rintro flaw ⟨hon, hparent, -⟩
  rw [root?_eq_none_iff.2 ⟨hon, hparent⟩] at hroot
  cases hroot

theorem passes_blankSource (hsource : d.source = some text) (htext : Text.trim text.toList ≠ []) :
    d.Passes .blankSource :=
  fun _ hfails => htext (hfails.1 text hsource)

theorem passes_root (hroot : d.root? = some root) (hr : root.normalize? = some r) :
    d.Passes .root := by
  rintro flaw ⟨root', hroot', hnone, -⟩
  rw [← Option.some.inj (hroot.symm.trans hroot'), hr] at hnone
  cases hnone

theorem passes_source (hsource : d.source = some text)
    (hs : (Path.ofString text).normalize? = some s) : d.Passes .source := by
  rintro flaw ⟨text', hsource', hnone, -⟩
  rw [← Option.some.inj (hsource.symm.trans hsource'), hs] at hnone
  cases hnone

theorem HasEnds.passes_itself (h : d.HasEnds r s) (hne : r ≠ s) : d.Passes .itself := by
  rintro flaw ⟨r', h', -⟩
  obtain ⟨hr, hs⟩ := h'.unique h
  exact hne (hr.symm.trans hs)

theorem HasEnds.passes_sourceInside (h : d.HasEnds r s) (hsr : s.isBelow r = false) :
    d.Passes .sourceInside := by
  rintro flaw ⟨r', s', h', hbelow, -⟩
  obtain ⟨rfl, rfl⟩ := h'.unique h
  rw [hsr] at hbelow
  cases hbelow

theorem HasEnds.passes_rootInside (h : d.HasEnds r s) (hrs : r.isBelow s = false) :
    d.Passes .rootInside := by
  rintro flaw ⟨r', s', h', hbelow, -⟩
  obtain ⟨rfl, rfl⟩ := h'.unique h
  rw [hrs] at hbelow
  cases hbelow

theorem passes_all (hroot : d.root? = some root) (hsource : d.source = some text)
    (htext : Text.trim text.toList ≠ []) (hr : root.normalize? = some r)
    (hs : (Path.ofString text).normalize? = some s) (hne : r ≠ s) (hsr : s.isBelow r = false)
    (hrs : r.isBelow s = false) (check : Check) : d.Passes check := by
  have hends : d.HasEnds r s := ⟨root, text, hroot, hsource, hr, hs⟩
  cases check with
  | parent => exact passes_parent hroot
  | blankSource => exact passes_blankSource hsource htext
  | root => exact passes_root hroot hr
  | source => exact passes_source hsource hs
  | itself => exact hends.passes_itself hne
  | sourceInside => exact hends.passes_sourceInside hsr
  | rootInside => exact hends.passes_rootInside hrs

/-! ## What comes of a declaration -/

theorem mapping_eq_ok_iff_hasEnds : d.mapping = .ok m ↔
    d.HasEnds m.root m.source ∧ m.overlayable = d.overlayable := by
  rw [mapping_eq_ok_iff, HasEnds]
  constructor
  · rintro ⟨root, text, hroot, hsource, hr, hs, hflag⟩
    exact ⟨⟨root, text, hroot, hsource, hr, hs⟩, hflag⟩
  · rintro ⟨⟨root, text, hroot, hsource, hr, hs⟩, hflag⟩
    exact ⟨root, text, hroot, hsource, hr, hs, hflag⟩

theorem passes_of_mapping (h : d.mapping = .ok m) (check : Check) : d.Passes check := by
  obtain ⟨root, text, hroot, hsource, hr, hs, -⟩ := mapping_eq_ok_iff.1 h
  obtain ⟨hne, hsr, hrs⟩ := m.ends_apart
  exact passes_all hroot hsource (Path.trim_ne_nil_of_normalize? hs) hr hs hne hsr hrs check

/-- Building the mapping makes all checks but the first, one after the other, up to the first that
fails. -/
theorem firstFlaw_of_between (hroot : d.root? = some root) (hsource : d.source = some text)
    (h : Mapping.between root (.ofString text) d.overlayable = .error flaw) :
    d.FirstFlaw flaw := by
  have hparent : d.Passes .parent := passes_parent hroot
  unfold Mapping.between at h
  split at h
  · next hblank =>
    cases h
    have hblank : ∀ text, d.source = some text → Text.trim text.toList = [] := by
      intro text' hsource'
      rw [← Option.some.inj (hsource.symm.trans hsource')]
      exact hblank
    exact ⟨[.parent], .blankSource, _, rfl, ⟨hblank, root, hroot, rfl⟩, by simpa using hparent⟩
  next hblank =>
  have hsourceText : d.Passes .blankSource := passes_blankSource hsource hblank
  split at h
  · next hr =>
    cases h
    exact ⟨[.parent, .blankSource], .root, _, rfl, ⟨root, hroot, hr, rfl⟩,
      by simp [hparent, hsourceText]⟩
  next r hr =>
  have hrootPath : d.Passes .root := passes_root hroot hr
  split at h
  · next hs =>
    cases h
    exact ⟨[.parent, .blankSource, .root], .source, _, rfl, ⟨text, hsource, hs, rfl⟩,
      by simp [hparent, hsourceText, hrootPath]⟩
  next s hs =>
  have hsourcePath : d.Passes .source := passes_source hsource hs
  have hends : d.HasEnds r s := ⟨root, text, hroot, hsource, hr, hs⟩
  split at h
  · next he =>
    cases h
    subst he
    exact ⟨[.parent, .blankSource, .root, .source], .itself, _, rfl, ⟨r, hends, rfl⟩,
      by simp [hparent, hsourceText, hrootPath, hsourcePath]⟩
  next hne =>
  have hitself : d.Passes .itself := hends.passes_itself hne
  split at h
  · next hsr =>
    cases h
    exact ⟨[.parent, .blankSource, .root, .source, .itself], .sourceInside, _, rfl,
      ⟨r, s, hends, hsr, rfl⟩, by simp [hparent, hsourceText, hrootPath, hsourcePath, hitself]⟩
  next hsr =>
  have hinside : d.Passes .sourceInside := hends.passes_sourceInside (by simpa using hsr)
  split at h
  · next hrs =>
    cases h
    exact ⟨[.parent, .blankSource, .root, .source, .itself, .sourceInside], .rootInside, _, rfl,
      ⟨r, s, hends, hrs, rfl⟩,
      by simp [hparent, hsourceText, hrootPath, hsourcePath, hitself, hinside]⟩
  · cases h

theorem firstFlaw_of_mapping (h : d.mapping = .error flaw) : d.FirstFlaw flaw := by
  unfold mapping at h
  split at h
  · next hroot =>
    cases h
    obtain ⟨hon, hnone⟩ := root?_eq_none_iff.1 hroot
    exact ⟨[], .parent, _, rfl, ⟨hon, hnone, rfl⟩, nofun⟩
  next root hroot =>
  split at h
  · next hsource =>
    cases h
    exact ⟨[.parent], .blankSource, _, rfl, ⟨by simp [hsource], root, hroot, rfl⟩,
      by simpa using passes_parent hroot⟩
  next text hsource => exact firstFlaw_of_between hroot hsource h

theorem mapping_eq_error_iff : d.mapping = .error flaw ↔ d.FirstFlaw flaw := by
  refine ⟨firstFlaw_of_mapping, fun hfirst => ?_⟩
  cases hd : d.mapping with
  | ok m =>
    obtain ⟨-, check, -, -, hfails, -⟩ := hfirst
    exact absurd hfails (passes_of_mapping hd check flaw)
  | error flaw' => rw [hfirst.unique (firstFlaw_of_mapping hd)]

theorem exists_mapping_iff : (∃ m, d.mapping = .ok m) ↔ ∀ check, d.Passes check := by
  constructor
  · rintro ⟨m, hm⟩
    exact passes_of_mapping hm
  · intro hpasses
    cases hd : d.mapping with
    | ok m => exact ⟨m, rfl⟩
    | error flaw =>
      obtain ⟨-, check, -, -, hfails, -⟩ := firstFlaw_of_mapping hd
      exact absurd hfails (hpasses check flaw)

/-- A declaration is a mapping exactly if it has a root and a source that is not blank, both have
normal forms, and these lie apart. Then it passes every check. The mapping holds the normal forms
and the flag as declared, and no path at all is within both of its ends. Any other declaration has
one first flaw, and this is told. -/
theorem mapping_exact (d : Declaration) :
    ((∃ m, d.mapping = .ok m) ↔ ∃ root text r s, d.root? = some root ∧ d.source = some text ∧
      Text.trim text.toList ≠ [] ∧ root.normalize? = some r ∧
      (Path.ofString text).normalize? = some s ∧
      r ≠ s ∧ s.isBelow r = false ∧ r.isBelow s = false) ∧
    ((∃ m, d.mapping = .ok m) ↔ ∀ check, d.Passes check) ∧
    (∀ m, d.mapping = .ok m ↔ d.HasEnds m.root m.source ∧ m.overlayable = d.overlayable) ∧
    (∀ m, d.mapping = .ok m →
      ∀ p : Path, ¬ (p.isWithin m.root = true ∧ p.isWithin m.source = true)) ∧
    (∀ flaw, d.mapping = .error flaw ↔ d.FirstFlaw flaw) ∧
    ((∃ m, d.mapping = .ok m) ∨ ∃! flaw, d.FirstFlaw flaw) := by
  refine ⟨⟨?_, ?_⟩, exists_mapping_iff, fun m => mapping_eq_ok_iff_hasEnds,
    fun m _ => m.not_isWithin_both, fun flaw => mapping_eq_error_iff, ?_⟩
  · rintro ⟨m, hm⟩
    obtain ⟨root, text, hroot, hsource, hr, hs, -⟩ := mapping_eq_ok_iff.1 hm
    exact ⟨root, text, m.root, m.source, hroot, hsource, Path.trim_ne_nil_of_normalize? hs, hr, hs,
      m.ends_apart⟩
  · rintro ⟨root, text, r, s, hroot, hsource, htext, hr, hs, hne, hsr, hrs⟩
    exact exists_mapping_iff.2 (passes_all hroot hsource htext hr hs hne hsr hrs)
  · cases hd : d.mapping with
    | ok m => exact .inl ⟨m, rfl⟩
    | error flaw =>
      have hfirst := firstFlaw_of_mapping hd
      refine .inr ⟨flaw, hfirst, ?_⟩
      intro other hother
      exact hother.unique hfirst

/-- Checks overlap. A top-level node asks for its parent and names a blank source; the root of a
relative node is invalid, and so is its source; two texts are one path when tidied. A source beside
the root, whose name begins with the root's, is no flaw. -/
theorem mapping_exact_overlaps :
    let topLevel : Declaration := ⟨.ofString "/a/", some " ", true, false⟩
    let relative : Declaration := ⟨.ofString "a", some "./b", false, false⟩
    let same : Declaration := ⟨.ofString "/a//b", some " /a/b/ ", false, true⟩
    let beside : Declaration := ⟨.ofString "/a/b", some "/a/bc//", false, true⟩
    topLevel.FirstFlaw (.noParent (.ofString "/a/")) ∧
    relative.FirstFlaw (.invalidPath (.ofString "a")) ∧
    same.FirstFlaw (.pointsToItself (.ofString "/a/b")) ∧
    ∃ m, beside.mapping = .ok m ∧ m.source = .ofString "/a/bc" ∧
      ∀ p : Path, ¬ (p.isWithin m.root = true ∧ p.isWithin m.source = true) := by
  intro topLevel relative same beside
  obtain ⟨-, -, -, -, htopLevel, -⟩ := mapping_exact topLevel
  obtain ⟨-, -, -, -, hrelative, -⟩ := mapping_exact relative
  obtain ⟨-, -, -, -, hsame, -⟩ := mapping_exact same
  obtain ⟨hbeside, -, -, hapart, -⟩ := mapping_exact beside
  obtain ⟨m, hm⟩ := hbeside.2 ⟨.ofString "/a/b", "/a/bc//", .ofString "/a/b", .ofString "/a/bc",
    by decide, rfl, by decide, by decide, by decide, by decide, by decide, by decide⟩
  obtain ⟨-, text, -, hsource, -, hs, -⟩ := mapping_eq_ok_iff.1 hm
  refine ⟨(htopLevel _).1 rfl, (hrelative _).1 rfl, (hsame _).1 rfl, m, hm, ?_, hapart m hm⟩
  obtain rfl := Option.some.inj hsource
  exact Option.some.inj (hs.symm.trans (by decide))

end Declaration

end Graft
