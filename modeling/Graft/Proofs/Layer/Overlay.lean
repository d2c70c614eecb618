import Graft.Proofs.Layer.Listing
import Graft.Proofs.Tree.Growth

/-!
# Real nodes over mapped content

An overlayable mapping differs from a plain one between the same two trees in one respect: below its
root it steps aside where a node really exists. Whether one does is asked once, of the path that is
read, and nowhere else.

When the repository is asked, nodes at other paths make no difference, a node that is added at the
path can only hide what was shown, and an unreadable repository hides nothing
(`overlay_hides_what_is_there`).
-/

namespace Graft

namespace Mapping

variable {k o plain : Mapping} {p : Path}

theorem asksAbout_eq (k : Mapping) (p : Path) :
    k.asksAbout p = (k.overlayable && p.isBelow k.root) := by
  cases hbelow : p.isBelow k.root with
  | true => rw [asksAbout_of_isBelow hbelow, Bool.and_true]
  | false => rw [asksAbout, hbelow, Bool.and_false, Bool.and_false]

theorem lookThroughM_of_not_asks {n : Type → Type} [Monad n] (h : k.asksAbout p = false)
    (ask : Path → n Bool) : k.lookThroughM ask p = pure (k.toSource? p) := by
  rw [lookThroughM, if_neg (ne_true_of_eq_false h)]

theorem lookThrough_of_not_asks (h : k.asksAbout p = false) (overlaid : Path → Bool) :
    k.lookThrough overlaid p = k.toSource? p := by
  rw [lookThrough, h, Bool.false_and]
  rfl

/-- Asking gives the same answer as knowing, and leaves behind what was asked. -/
theorem run_lookThroughM_recording (k : Mapping) (overlaid : Path → Bool) (p : Path)
    (asked : List Path) : (k.lookThroughM (recording overlaid) p).run asked =
      (k.lookThrough overlaid p, asked ++ if k.asksAbout p then [p] else []) := by
  cases hasks : k.asksAbout p with
  | false =>
    rw [lookThroughM_of_not_asks hasks, lookThrough_of_not_asks hasks, if_neg Bool.false_ne_true,
      List.append_nil]
    rfl
  | true =>
    rw [lookThroughM, lookThrough, hasks, Bool.true_and]
    rfl

theorem toSource?_eq_of_ends (hroot : o.root = plain.root) (hsource : o.source = plain.source)
    (p : Path) : o.toSource? p = plain.toSource? p := by
  rw [toSource?, toSource?, hroot, hsource]

/-- The answer for a path depends on the answer about this path alone. -/
theorem lookThrough_congr (k : Mapping) {overlaid overlaid' : Path → Bool}
    (h : k.asksAbout p = true → overlaid' p = overlaid p) :
    k.lookThrough overlaid' p = k.lookThrough overlaid p := by
  cases hasks : k.asksAbout p with
  | false => rw [lookThrough_of_not_asks hasks, lookThrough_of_not_asks hasks]
  | true => rw [lookThrough, lookThrough, h hasks]

/-- Where more really exists, the answer stays or there is none any more. -/
theorem lookThrough_eq_or_none (k : Mapping) {overlaid overlaid' : Path → Bool}
    (h : overlaid p = true → overlaid' p = true) :
    k.lookThrough overlaid' p = k.lookThrough overlaid p ∨ k.lookThrough overlaid' p = none := by
  cases hoverlaid : overlaid' p with
  | false =>
    have hsame : overlaid' p = overlaid p := by
      rw [hoverlaid, Bool.eq_false_iff.2 (mt h (ne_true_of_eq_false hoverlaid))]
    exact Or.inl (lookThrough_congr k fun _ => hsame)
  | true =>
    cases hasks : k.asksAbout p with
    | false => exact Or.inl (by rw [lookThrough_of_not_asks hasks, lookThrough_of_not_asks hasks])
    | true => exact Or.inr (by rw [lookThrough, hasks, hoverlaid]; rfl)

end Mapping

namespace Repository

variable {r r' : Repository} {p : Path}

theorem overlays_of_failing (hr : r.failing = true) (p : Path) : r.overlays p = false := by
  simp only [overlays, has, guardRead, hr]
  rfl

theorem overlays_eq_and (r : Repository) (p : Path) :
    r.overlays p = (!r.failing && r.tree.contains p) := by
  cases hr : r.failing with
  | true => exact overlays_of_failing hr p
  | false => exact overlays_eq hr p

theorem overlays_transact_of_added {edits : List Edit} (hkeeps : ∀ e ∈ edits, e.removes = false)
    (hadded : .added p ∈ (r.tree.transact edits).changes) :
    (r.transact edits).1.overlays p = !r.failing := by
  have hcontains : (r.tree.transact edits).tree.contains p = true :=
    ((Revision.grows_transact hkeeps r.tree).contains_iff p).2 (Or.inr hadded)
  rw [overlays_eq_and, transact, hcontains, Bool.and_true]

theorem overlays_transact_of_not_added {edits : List Edit}
    (hkeeps : ∀ e ∈ edits, e.removes = false)
    (hadded : .added p ∉ (r.tree.transact edits).changes) :
    (r.transact edits).1.overlays p = r.overlays p := by
  have hcontains : (r.tree.transact edits).tree.contains p = r.tree.contains p := by
    rw [Bool.eq_iff_iff, (Revision.grows_transact hkeeps r.tree).contains_iff, or_iff_left hadded]
  rw [overlays_eq_and, overlays_eq_and, transact, hcontains]

end Repository

open Mapping in
/-- Of two mappings between the same trees let `o` be overlayable and `plain` not. What really exists
makes no difference to `plain`, which never asks. Nor does it to `o`, which answers as `plain` does,
except below the root, where `o` asks about the path itself, once, and gives no answer if a node
really exists there.

When the repository is asked, it matters only whether there is a node at the path. A transaction that
takes nothing away makes no difference unless it adds a node there, which it does only where its edits
reach; then the path is hidden, if it is below the root and the repository can be read. An unreadable
repository gives the answer of `plain`. -/
theorem overlay_hides_what_is_there {o plain : Mapping} (hroot : o.root = plain.root)
    (hsource : o.source = plain.source) (ho : o.overlayable = true)
    (hplain : plain.overlayable = false) (p : Path) :
    (∀ (n : Type → Type) [Monad n] (ask : Path → n Bool),
      plain.lookThroughM ask p = pure (plain.toSource? p)) ∧
    (∀ f, plain.lookThrough f p = plain.toSource? p) ∧
    (∀ f, o.lookThrough f p =
      if p.isBelow o.root = true ∧ f p = true then none else plain.lookThrough f p) ∧
    (∀ (n : Type → Type) [Monad n] (ask : Path → n Bool), p.isBelow o.root = false →
      o.lookThroughM ask p = plain.lookThroughM ask p) ∧
    (∀ f asked, (o.lookThroughM (recording f) p).run asked =
      (o.lookThrough f p, asked ++ if p.isBelow o.root then [p] else [])) ∧
    (∀ r r' : Repository, r'.failing = r.failing →
      (r'.tree.contains p = r.tree.contains p →
        o.lookThrough r'.overlays p = o.lookThrough r.overlays p) ∧
      ((r.tree.contains p = true → r'.tree.contains p = true) →
        o.lookThrough r'.overlays p = o.lookThrough r.overlays p ∨
          o.lookThrough r'.overlays p = none)) ∧
    (∀ (r : Repository) edits, (∀ e ∈ edits, e.removes = false) →
      let next := (r.transact edits).1
      let added := Change.added p ∈ (r.tree.transact edits).changes
      (¬ added → o.lookThrough next.overlays p = o.lookThrough r.overlays p) ∧
      (added → o.lookThrough next.overlays p =
        if p.isBelow o.root = true ∧ r.failing = false then none
        else plain.lookThrough r.overlays p) ∧
      (added → ∃ e ∈ edits, e.Reaches p)) ∧
    ∀ r : Repository, r.failing = true →
      o.lookThrough r.overlays p = plain.lookThrough r.overlays p := by
  have hasks : o.asksAbout p = p.isBelow o.root := by rw [asksAbout_eq, ho, Bool.true_and]
  have hnever : plain.asksAbout p = false := by rw [asksAbout_eq, hplain, Bool.false_and]
  have hsame := toSource?_eq_of_ends hroot hsource p
  have hrule : ∀ f, o.lookThrough f p =
      if p.isBelow o.root = true ∧ f p = true then none else plain.lookThrough f p := by
    intro f
    rw [lookThrough_of_not_asks hnever, ← hsame, lookThrough, hasks]
    simp only [Bool.and_eq_true]
  refine ⟨?_, ?_, hrule, ?_, ?_, ?_, ?_, ?_⟩
  · exact fun n _ ask => lookThroughM_of_not_asks hnever ask
  · exact lookThrough_of_not_asks hnever
  · intro n _ ask habove
    rw [lookThroughM_of_not_asks (hasks.trans habove), lookThroughM_of_not_asks hnever, hsame]
  · intro f asked
    rw [run_lookThroughM_recording, hasks]
  · intro r r' hfailing
    have hoverlays : ∀ q, r'.overlays q = (!r.failing && r'.tree.contains q) := by
      intro q
      rw [Repository.overlays_eq_and, hfailing]
    refine ⟨fun hcontains => lookThrough_congr o fun _ => ?_,
      fun hgrows => lookThrough_eq_or_none o ?_⟩
    · rw [hoverlays, hcontains, Repository.overlays_eq_and]
    · rw [hoverlays, Repository.overlays_eq_and, Bool.and_eq_true, Bool.and_eq_true]
      exact And.imp_right hgrows
  · intro r edits hkeeps next added
    refine ⟨fun hadded => lookThrough_congr o fun _ => ?_, fun hadded => ?_, fun hadded => ?_⟩
    · exact Repository.overlays_transact_of_not_added hkeeps hadded
    · rw [hrule, Repository.overlays_transact_of_added hkeeps hadded,
        lookThrough_of_not_asks hnever, lookThrough_of_not_asks hnever]
      simp only [Bool.not_eq_true']
    · exact (Revision.grows_transact hkeeps r.tree).within p hadded
  · intro r hr
    rw [hrule, Repository.overlays_of_failing hr, if_neg (by simp)]

open Mapping in
/-- A node beside the path makes no difference, one below it hides it, since it brings one at the path
with it. -/
theorem overlay_hides_what_is_there_below :
    let plain : Mapping := ⟨.ofString "/a", .ofString "/x", false,
      Path.isTidy_of_isNormal (by decide), Path.isTidy_of_isNormal (by decide), by decide,
      by decide⟩
    let o : Mapping := { plain with overlayable := true }
    let p := Path.ofString "/a/b"
    let beside : List Edit := [.addNode (.ofString "/a/c"), .addTag (.ofString "/a") "t"]
    let within : List Edit := [.addNode (.ofString "/a/b/c/")]
    o.root = plain.root ∧ o.source = plain.source ∧ o.overlayable = true ∧
    plain.overlayable = false ∧ p.isBelow o.root = true ∧
    (o.lookThroughM (recording fun _ => false) p).run [] = (some (.ofString "/x/b"), [p]) ∧
    o.lookThrough (Repository.empty.transact beside).1.overlays p =
      o.lookThrough Repository.empty.overlays p ∧
    o.lookThrough (Repository.empty.transact within).1.overlays p = none ∧
    o.lookThrough { Repository.empty with failing := true }.overlays p =
      some (.ofString "/x/b") := by
  intro plain o p beside within
  obtain ⟨-, -, -, -, hasked, -, hgrown, hfailing⟩ :=
    @overlay_hides_what_is_there o plain rfl rfl rfl rfl p
  obtain ⟨hbeside, -, -⟩ := hgrown .empty beside (by decide)
  obtain ⟨-, hwithin, -⟩ := hgrown .empty within (by decide)
  exact ⟨rfl, rfl, rfl, rfl, by decide, (hasked _ _).trans rfl, hbeside (by decide),
    (hwithin (by decide)).trans (if_pos (by decide)), (hfailing _ rfl).trans (by decide)⟩

end Graft
