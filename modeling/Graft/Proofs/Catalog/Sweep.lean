import Graft.Proofs.Catalog.Callers

/-!
# Two passes in a row

Queries overlap, so a pass may find a node several times. Nodes that declare mappings for their
parents may also meet at one root, some of them with a flaw. All are registered one after the other,
and at each root the last one that touches it has its way, whatever was there before
(`lookup_sweep_last`).

A second pass meets what the first one has left. Where the nodes at a root are at odds, it registers
them over again, with the same end. Where they agree, the catalog has what each of them declares
(`Reflects`), and the second pass leaves everything as it is (`sweep_of_reflects`).
-/

namespace Graft

namespace Report

theorem total_count (report : Report) (outcome : Catalog.Outcome) :
    (report.count outcome).total = report.total + 1 := by
  cases outcome with
  | applied => simp only [count, total]; omega
  | skipped => simp only [count, total]; omega
  | rejected flaw => rfl

theorem applied_count {outcome : Catalog.Outcome} (h : outcome ≠ .applied) (report : Report) :
    (report.count outcome).applied = report.applied := by
  cases outcome with
  | applied => exact absurd rfl h
  | skipped => rfl
  | rejected flaw => rfl

end Report

namespace Catalog

variable {c : Catalog} {r : Repository} {stop : Nat → Bool}

/-! ## Sweeps that nobody stops -/

/-- A sweep whose first polls say go on is one that nobody stops, and then the rest. -/
theorem sweep_append (c : Catalog) {first : List Path} (rest : List Path) {report : Report}
    (hstop : ∀ n < first.length, stop (report.total + n) = false) :
    c.sweep r stop (first ++ rest) report =
      let (swept, report') := c.sweep r (fun _ => false) first report
      swept.sweep r stop rest report' := by
  induction first generalizing c report with
  | nil => rfl
  | cons p first ih =>
    have hpoll : stop report.total = false := hstop 0 (Nat.succ_pos _)
    have hrest : ∀ outcome, ∀ n < first.length,
        stop ((report.count outcome).total + n) = false := by
      intro outcome n hn
      have hpoll := hstop (n + 1) (Nat.succ_lt_succ hn)
      rw [Report.total_count, Nat.add_assoc, Nat.add_comm 1 n]
      exact hpoll
    rw [List.cons_append, sweep, sweep, if_neg (Bool.eq_false_iff.1 hpoll), if_neg (by simp)]
    exact ih _ (hrest _)

/-- Only the polls before the candidates count. -/
theorem sweep_of_unstopped (c : Catalog) {found : List Path} {report : Report}
    (hstop : ∀ n < found.length, stop (report.total + n) = false) :
    c.sweep r stop found report = c.sweep r (fun _ => false) found report := by
  have happend := sweep_append (r := r) c [] hstop
  rw [List.append_nil] at happend
  exact happend

theorem total_sweep (c : Catalog) (r : Repository) (found : List Path) (report : Report) :
    (c.sweep r (fun _ => false) found report).2.total = report.total + found.length := by
  induction found generalizing c report with
  | nil => rfl
  | cons p found ih =>
    rw [sweep, if_neg (by simp)]
    refine (ih _ _).trans ?_
    rw [Report.total_count, List.length_cons]
    omega

theorem pass_of_unstopped (c : Catalog) {queries : List String} {found : List Path}
    (hfound : r.declaring queries = .ok found) (hstop : ∀ n < found.length, stop n = false) :
    c.pass r queries stop = ((c.sweep r (fun _ => false) found .blank).1,
      .ok (c.sweep r (fun _ => false) found .blank).2) := by
  have hpolls : ∀ n < found.length, stop (Report.blank.total + n) = false := by
    intro n hn
    rw [show Report.blank.total = 0 from rfl, Nat.zero_add]
    exact hstop n hn
  unfold pass
  rw [hfound]
  dsimp only
  rw [sweep_of_unstopped c hpolls]

/-! ## What is registered already -/

/-- The root that the declaration touches has what is declared, which is nothing if there is a
flaw. -/
def Reflects (c : Catalog) (d : Declaration) : Prop :=
  ∀ root, d.target? = some root → c.lookup root = d.mapping.toOption

/-- To register what the catalog reflects is to leave it as it is, down to the handles. -/
theorem register_of_reflects (h : c.Consistent) {d : Declaration} (hd : c.Reflects d) :
    (c.register d).1 = c ∧ (c.register d).2 ≠ .applied := by
  unfold Reflects Declaration.target? at hd
  unfold register
  cases hm : d.mapping with
  | ok m =>
    rw [hm] at hd
    dsimp only
    rw [install_of_active h (hd m.root rfl)]
    exact ⟨rfl, nofun⟩
  | error flaw =>
    rw [hm] at hd
    dsimp only
    refine ⟨?_, nofun⟩
    cases hroot : d.root? with
    | none => rfl
    | some root => exact congrArg Prod.fst (unregister_of_free h (hd root hroot))

theorem sweep_of_reflects (h : c.Consistent) (stop : Nat → Bool) {found : List Path}
    (hfound : ∀ p ∈ found, c.Reflects (r.declaration p)) (report : Report) :
    (c.sweep r stop found report).1 = c ∧
      (c.sweep r stop found report).2.applied = report.applied := by
  induction found generalizing report with
  | nil => exact ⟨rfl, rfl⟩
  | cons p found ih =>
    obtain ⟨hsame, hnew⟩ := register_of_reflects h (hfound p List.mem_cons_self)
    unfold sweep
    split
    · exact ⟨rfl, rfl⟩
    · obtain ⟨hstill, happlied⟩ := ih (fun p hp => hfound p (List.mem_cons_of_mem _ hp))
        (report.count (c.register (r.declaration p)).2)
      rw [Report.applied_count hnew] at happlied
      dsimp only
      rw [hsame]
      exact ⟨hstill, happlied⟩

/-! ## Passes -/

/-- If the nodes found agree then a sweep leaves a catalog that reflects every one of them. -/
theorem reflects_sweep (h : c.Open) {found : List Path}
    (hagree : ∀ p ∈ found, ∀ p' ∈ found, (r.declaration p).Agrees (r.declaration p'))
    (report : Report) {p : Path} (hp : p ∈ found) :
    (c.sweep r (fun _ => false) found report).1.Reflects (r.declaration p) := by
  intro root hroot
  rw [lookup_sweep_last h]
  cases hlast : r.lastAt? found root with
  | none => exact absurd hroot (Repository.lastAt?_eq_none_iff.1 hlast p hp)
  | some p' =>
    obtain ⟨hp', hroot'⟩ := Repository.of_lastAt? hlast
    exact hagree p' hp' p hp (hroot'.trans hroot.symm)

/-- A sweep over the same nodes comes to the same mappings once more. -/
theorem mappings_sweep_sweep (h : c.Open) (r : Repository) (found : List Path)
    (report report' : Report) :
    let swept := (c.sweep r (fun _ => false) found report).1
    (swept.sweep r (fun _ => false) found report').1.mappings = swept.mappings := by
  intro swept
  have hlook : ∀ q, (swept.sweep r (fun _ => false) found report').1.lookup q = swept.lookup q := by
    intro q
    rw [lookup_sweep_last (h.sweep r _ found report), lookup_sweep_last h]
    cases r.lastAt? found q with
    | none => rfl
    | some p => rfl
  exact congrArg Table.values (Table.ext_get? hlook)

theorem cancelled_sweep (c : Catalog) (r : Repository) (found : List Path) (report : Report) :
    (c.sweep r (fun _ => false) found report).2.cancelled = report.cancelled := by
  induction found generalizing c report with
  | nil => rfl
  | cons p found ih =>
    rw [sweep, if_neg (by simp)]
    exact (ih _ _).trans (Report.cancelled_count _ _)

/-- Let nobody cancel two passes over a repository that succeed. After the first one each root has
what the last node declares of those found that touch it, which is nothing if the node has a flaw,
and a root that none of them touches has what it had. Whatever a query finds is counted, as often as
it is found. The second pass leaves the same mappings, and if the nodes found agree it applies
nothing and tells the board nothing. -/
theorem pass_last_wins (history : List Op) (hopen : (after history).isSealed = false)
    {queries : List String} {found : List Path} (hfound : r.declaring queries = .ok found)
    (stop stop' : Nat → Bool)
    (hstop : ∀ n < found.length, stop n = false) (hstop' : ∀ n < found.length, stop' n = false) :
    let first := (after history).pass r queries stop
    let second := first.1.pass r queries stop'
    (∀ root, (∀ p ∈ found, (r.declaration p).target? ≠ some root) →
      first.1.lookup root = (after history).lookup root) ∧
    (∀ root before p later, found = before ++ p :: later →
      (r.declaration p).target? = some root →
      (∀ p' ∈ later, (r.declaration p').target? ≠ some root) →
      first.1.lookup root = (r.declaration p).mapping.toOption) ∧
    (∃ report, first.2 = .ok report ∧ report.cancelled = false ∧
      report.applied + report.skipped + report.rejected = found.length) ∧
    (∃ lists, List.Forall₂ (fun query list => r.declaring [query] = .ok list) queries lists ∧
      lists.flatten = found) ∧
    second.1.mappings = first.1.mappings ∧
    ((∀ p ∈ found, ∀ p' ∈ found, (r.declaration p).Agrees (r.declaration p')) →
      second.1 = first.1 ∧ ∃ report, second.2 = .ok report ∧ report.applied = 0) := by
  have h : (after history).Open := ⟨consistent_after history, hopen⟩
  intro first second
  have hfirst : first = _ := pass_of_unstopped (after history) hfound hstop
  have hsecond : second = _ := pass_of_unstopped first.1 hfound hstop'
  rw [hfirst] at hsecond
  rw [hsecond, hfirst]
  refine ⟨fun root huntouched => ?_, fun root before p later hsplit hp hlater => ?_, ?_,
    Repository.declaring_eq_flatten hfound, ?_, fun hagree => ?_⟩
  · rw [lookup_sweep_last h, Repository.lastAt?_eq_none_iff.2 huntouched]
  · rw [lookup_sweep_last h, hsplit, Repository.lastAt?_append_cons hp hlater]
  · refine ⟨_, rfl, cancelled_sweep _ r found .blank, ?_⟩
    exact (total_sweep _ r found .blank).trans (Nat.zero_add _)
  · exact mappings_sweep_sweep h r found .blank .blank
  · have hswept := h.sweep r (fun _ => false) found .blank
    obtain ⟨hsame, hnone⟩ := sweep_of_reflects hswept.consistent (fun _ => false)
      (fun p hp => reflects_sweep h hagree .blank hp) .blank
    exact ⟨hsame, _, rfl, hnone⟩

/-- Two nodes declare mappings at `/b` that are at odds, and both are found twice; the one below has
the last word. What was at `/e` is withdrawn, since the source that is declared there is no absolute
path. The nodes that the other queries find agree, and a second pass over them changes nothing. -/
theorem pass_last_wins_twice :
    let r := (Repository.empty.transact [.declare (.ofString "/b") "/s" false false,
      .declare (.ofString "/b/def") "/t" true false,
      .declare (.ofString "/e/def") "rel" true false]).1
    let history : List Op := [.register ⟨.ofString "/e", some "/u", false, false⟩,
      .register ⟨.ofString "/k", some "/v", false, false⟩]
    let ask := ["marker|superimpose /b", "marker|superimpose"]
    let calm := ["marker|superimpose /e", "marker|superimpose /b/def", "marker|superimpose /e"]
    let first := (after history).pass r ask fun _ => false
    let quiet := (after history).pass r calm fun _ => false
    first.2 = .ok ⟨4, 0, 1, false⟩ ∧
    first.1.lookup (.ofString "/b") = (r.declaration (.ofString "/b/def")).mapping.toOption ∧
    first.1.lookup (.ofString "/e") = none ∧
    first.1.lookup (.ofString "/k") = (after history).lookup (.ofString "/k") ∧
    (first.1.pass r ask fun _ => false).1.mappings = first.1.mappings ∧
    first.1.mappings.length = 2 ∧
    (first.1.pass r ask fun _ => false).1.board.calls ≠ first.1.board.calls ∧
    (quiet.1.pass r calm fun _ => false).1 = quiet.1 ∧ quiet.1.mappings.length = 2 := by
  intro r history ask calm first quiet
  have hfound : r.declaring ask =
      .ok (["/b", "/b/def", "/b", "/b/def", "/e/def"].map .ofString) := by decide
  have hcalm : r.declaring calm = .ok (["/e/def", "/b/def", "/e/def"].map .ofString) := by decide
  let never : Nat → Bool := fun _ => false
  obtain ⟨hothers, hlast, -, -, hsame, -⟩ :=
    pass_last_wins history (by decide) hfound never never (fun _ _ => rfl) (fun _ _ => rfl)
  obtain ⟨-, -, -, -, -, hagree⟩ :=
    pass_last_wins history (by decide) hcalm never never (fun _ _ => rfl) (fun _ _ => rfl)
  have hb := hlast (.ofString "/b") (["/b", "/b/def", "/b"].map .ofString) (.ofString "/b/def")
    [.ofString "/e/def"] rfl (by decide) (by decide)
  have he := hlast (.ofString "/e") (["/b", "/b/def", "/b", "/b/def"].map .ofString)
    (.ofString "/e/def") [] rfl (by decide) nofun
  have hflawed : (r.declaration (.ofString "/e/def")).mapping.toOption = none := by decide
  exact ⟨by decide, hb, he.trans hflawed, hothers _ (by decide), hsame, by decide, by decide,
    (hagree (by decide)).1, by decide⟩

end Catalog

end Graft
