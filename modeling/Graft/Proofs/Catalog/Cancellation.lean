import Graft.Proofs.Catalog.Sweep

/-!
# Passes that are cut short

A pass polls before each candidate, and the first poll that tells it to stop is its last one. What
came before is a plain run of registrations (`sweep_eq_play`), and nothing comes after. So a pass
that is told to stop by its poll number `k` has registered the first `k` nodes that were found, or
all of them if there are no more than that, and it calls itself cancelled exactly if one was left
(`pass_cut_exact`).

Neither the catalog nor what the nodes declare matters to this. The catalog may be sealed, and its
views need not agree.
-/

namespace Graft.Catalog

variable {c : Catalog} {r : Repository} {stop : Nat → Bool} {found : List Path} {report : Report}

/-- The first poll that says stop is the one of the given number; without a number none does. -/
def StopsAt (stop : Nat → Bool) : Option Nat → Prop
  | some k => stop k = true ∧ ∀ n < k, stop n = false
  | none => ∀ n, stop n = false

/-- A sweep that nobody stops is a run of registrations that counts the outcomes. -/
theorem sweep_eq_play (c : Catalog) (r : Repository) (found : List Path) (report : Report) :
    c.sweep r (fun _ => false) found report =
      let (registered, outcomes) := play register c (found.map r.declaration)
      (registered, outcomes.foldl Report.count report) := by
  induction found generalizing c report with
  | nil => rfl
  | cons p found ih =>
    rw [sweep, if_neg (by simp)]
    exact ih (c.register (r.declaration p)).1 (report.count (c.register (r.declaration p)).2)

/-- A sweep that is told to stop after some nodes is one over these nodes, which nobody stops. -/
theorem sweep_cut (c : Catalog) (r : Repository) {n : Nat} (hbefore : ∀ i < n, stop i = false)
    (hat : n < found.length → stop n = true) :
    c.sweep r stop found .blank =
      let (swept, report) := c.sweep r (fun _ => false) (found.take n) .blank
      (swept, { report with cancelled := decide (n < found.length) }) := by
  have hmet : (found.take n).length = min n found.length := List.length_take
  have htotal := total_sweep c r (found.take n) .blank
  have hcancelled := cancelled_sweep c r (found.take n) .blank
  have hpolls : ∀ i < (found.take n).length, stop (Report.blank.total + i) = false := by
    intro i hi
    rw [hmet] at hi
    rw [show Report.blank.total + i = i from Nat.zero_add i]
    exact hbefore i (Nat.lt_of_lt_of_le hi (Nat.min_le_left n _))
  have hsplit := sweep_append (r := r) c (found.drop n) hpolls
  rw [List.take_append_drop] at hsplit
  rw [hsplit]
  generalize c.sweep r (fun _ => false) (found.take n) .blank = swept at htotal hcancelled ⊢
  obtain ⟨swept, report⟩ := swept
  dsimp only at htotal hcancelled ⊢
  rcases Nat.lt_or_ge n found.length with hn | hn
  · -- the next poll comes after `n` candidates and before another one
    have hpoll : report.total = n := by
      rw [htotal, hmet, Nat.min_eq_left (Nat.le_of_lt hn)]
      exact Nat.zero_add n
    rw [List.drop_eq_getElem_cons hn, sweep, hpoll, if_pos (hat hn), decide_eq_true hn]
  · rw [List.drop_eq_nil_of_le hn, sweep, decide_eq_false (Nat.not_lt.2 hn)]
    cases report
    cases hcancelled
    rfl

/-- Let the queries of a pass succeed, and let its poll number `k` be the first one that says stop,
or none of them. Then the pass registers what the first `k` nodes found declare, in their order, or
all of them if there are no more than that, and nothing else: the catalog with its board is the one
that these registrations leave, and the report counts their outcomes. The pass is cancelled exactly
if there was a node left. -/
theorem pass_cut_exact (c : Catalog) {queries : List String}
    (hfound : r.declaring queries = .ok found) {k : Option Nat} (hk : StopsAt stop k) :
    let met := found.take (k.getD found.length)
    let (registered, outcomes) := play register c (met.map r.declaration)
    let report := { tally outcomes with cancelled := k.any (· < found.length) }
    c.pass r queries stop = (registered, .ok report) ∧
      report.total = min (k.getD found.length) found.length := by
  intro met
  have hmet : met.length = min (k.getD found.length) found.length := List.length_take
  have htotal : (c.sweep r (fun _ => false) met .blank).2.total = met.length :=
    (total_sweep c r met .blank).trans (Nat.zero_add _)
  have hcut : c.sweep r stop found .blank =
      let (swept, report) := c.sweep r (fun _ => false) met .blank
      (swept, { report with cancelled := k.any (· < found.length) }) := by
    cases k with
    | none =>
      have hcut := sweep_cut c r (fun i (_ : i < found.length) => hk i)
        (fun hn => absurd hn (Nat.lt_irrefl _))
      rw [decide_eq_false (Nat.lt_irrefl _)] at hcut
      exact hcut
    | some i => exact sweep_cut c r hk.2 (fun _ => hk.1)
  rw [sweep_eq_play] at htotal hcut
  constructor
  · rw [pass, hfound]
    dsimp only
    rw [hcut]
    rfl
  · exact htotal.trans hmet

/-- Four candidates are found, of which `/c` comes first and last and `/b` is flawed. A pass that is
told to stop by the poll after the third one does not come to `/c` again. One poll later there is no
candidate left, and the pass is not cancelled. -/
theorem pass_cut_exact_midway :
    let r := (Repository.empty.transact [.declare (.ofString "/a") "/s" false false,
      .declare (.ofString "/b") "rel" false false, .declare (.ofString "/c") "/t" false true]).1
    let c := after [.register ⟨.ofString "/b", some "/u", false, false⟩]
    let ask := ["marker|superimpose /c", "marker|superimpose"]
    let cut := c.pass r ask (· == 3)
    let whole := c.pass r ask (· == 4)
    cut.2 = .ok ⟨2, 0, 1, true⟩ ∧ cut.1.mappings.map (·.root) = ["/a", "/c"].map .ofString ∧
      cut.1 = (play register c (["/c", "/a", "/b"].map (r.declaration <| .ofString ·))).1 ∧
      whole.2 = .ok ⟨2, 1, 1, false⟩ := by
  intro r c ask cut whole
  have hfound : r.declaring ask = .ok (["/c", "/a", "/b", "/c"].map .ofString) := by decide
  have hthird : StopsAt (· == 3) (some 3) := ⟨rfl, by decide⟩
  have hfourth : StopsAt (· == 4) (some 4) := ⟨rfl, by decide⟩
  obtain ⟨hcut, -⟩ := pass_cut_exact c hfound hthird
  obtain ⟨hwhole, -⟩ := pass_cut_exact c hfound hfourth
  refine ⟨?_, ?_, congrArg Prod.fst hcut, ?_⟩
  · exact (congrArg Prod.snd hcut).trans (by decide)
  · decide
  · exact (congrArg Prod.snd hwhole).trans (by decide)

end Graft.Catalog
