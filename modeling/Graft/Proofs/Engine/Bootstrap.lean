import Graft.Proofs.Catalog.Astray
import Graft.Proofs.Engine.Passes
import Graft.Proofs.Engine.Watched

/-!
# The first pass

A pass over a watched path may be held anywhere while the repository changes. What is out of line then
is still to be done by the pass (`Pass.todo`) or has gone astray (`Awaits`). A step of the pass keeps
this, and when the pass comes to its end nothing but the nodes astray is out of line (`Awaits.step`).
A pass that starts and runs to its gate without a change in between leads no node astray
(`start_awaits`).

Between two candidates a pass looks first whether it has been told to stop. Then it does nothing any
more (`finish_stopped`).
-/

namespace Graft

variable {watched : Path} {c : Catalog} {r : Repository} {p : Path} {m : Mapping}

/-- A repository that can be read, in which sources stand beside the marker at or below `watched`. -/
structure Repository.Calm (watched : Path) (r : Repository) : Prop where
  reads : r.failing = false
  marked : r.tree.Marked watched

namespace Repository.Calm

/-- Whatever declares a mapping is found. -/
theorem mem_declarations (h : r.Calm watched) (hm : (r.declaration p).mapping = .ok m) :
    p ∈ r.declarations watched := by
  have hsource := Declaration.source_of_mapping hm
  rw [declaration_eq h.reads, Declaration.ofFields, Tree.field] at hsource
  cases hnode : r.tree.get? p with
  | none => rw [hnode] at hsource; cases hsource
  | some node =>
    rw [hnode] at hsource
    have hfield : node.field .source ≠ none := by
      intro hnone
      rw [Option.bind_some, hnone] at hsource
      cases hsource
    rcases h.marked p node hnode with rfl | ⟨⟨-, hwithin⟩, hmarked⟩
    · exact absurd rfl hfield
    · exact mem_declarations_iff.2 ⟨node, hnode, hmarked.source hfield, hwithin⟩

/-- A node that is not found is in line if nothing is active that is not declared. -/
theorem inLineAt_of_not_mem (h : r.Calm watched) (hp : p ∉ r.declarations watched)
    (hsound : c.lookup p = none ∨ c.InLineAt r p) : c.InLineAt r p := by
  rcases hsound with hnone | hline
  · cases hm : (r.declaration p).mapping with
    | ok m => exact absurd (h.mem_declarations hm) hp
    | error flaw =>
      rw [Catalog.InLineAt, hnone, hm]
      rfl
  · exact hline

/-- A search finds nodes at normal forms. -/
theorem isNormal_of_search (h : r.Calm watched) {query : Query} {found : List Path}
    (hfound : r.search query = .ok found) (hp : p ∈ found) : p.isNormal = true := by
  obtain ⟨tag, scope, rfl⟩ := search_eq_tagged hfound
  obtain ⟨node, hnode, hbare⟩ := get?_of_mem_tagged hp
  exact (h.marked.regular p node hnode).resolve_left hbare

/-- No node asks for its parent's path. -/
theorem asFlag?_onParent (h : r.Calm watched) (p : Path) :
    ((r.field? p .onParent).bind Value.asFlag?).getD false = false := by
  rw [field?_eq h.reads, Tree.field]
  cases hnode : r.tree.get? p with
  | none => rfl
  | some node => exact h.marked.noneOnParent p node hnode

end Repository.Calm

namespace Pass

variable {pass pass' : Pass} {astray : List Path}

/-! ## What a pass has to do -/

def todo : Pass → List Path
  | asking found _ => found
  | polling rest _ => rest
  | reading node _ rest _ => node :: rest

def pending : Pass → List Query
  | asking _ queries => queries
  | polling _ _ | reading _ _ _ _ => []

/-- Whatever the pass registers is the declaration of a node for its own path. -/
structure Tame (pass : Pass) : Prop where
  normal : ∀ p ∈ pass.todo, p.isNormal = true
  own : ∀ d ∈ pass.gathered?, d.onParent = false

/-- A pass that is not reading a candidate is tame if what it has found stands at normal forms. -/
theorem tame_of_idle (hnormal : ∀ p ∈ pass.todo, p.isNormal = true)
    (hidle : pass.gathered? = none) : pass.Tame where
  normal := hnormal
  own := by
    intro d hd
    rw [hidle] at hd
    cases hd

theorem Tame.ownRoot (h : pass.Tame) {d : Declaration} (hd : pass.candidate? = some d) :
    d.OwnRoot := by
  obtain ⟨node, seen, rest, report, rfl, -, rfl⟩ := candidate?_eq_some_iff.1 hd
  exact ⟨h.normal node List.mem_cons_self, h.own _ rfl⟩

theorem Tame.step (h : pass.Tame) (hcalm : r.Calm watched) {stop : Nat → Bool}
    (hstep : (pass.step r stop c).2 = .held pass') : pass'.Tame := by
  cases pass with
  | asking found queries =>
    cases queries with
    | nil =>
      cases hstep
      exact tame_of_idle h.normal rfl
    | cons query queries =>
      rw [Pass.step] at hstep
      split at hstep
      · cases hstep
      next more hmore =>
      cases hstep
      refine tame_of_idle (fun p hp => ?_) rfl
      rcases List.mem_append.1 hp with hp | hp
      · exact h.normal p hp
      · exact hcalm.isNormal_of_search hmore hp
  | polling rest report =>
    cases rest with
    | nil => cases hstep
    | cons p rest =>
      rw [Pass.step] at hstep
      split at hstep
      · cases hstep
      · cases hstep
        refine ⟨h.normal, ?_⟩
        rintro d ⟨⟩
        rfl
  | reading node seen rest report =>
    rw [Pass.step] at hstep
    split at hstep
    · next f fields hfields =>
      cases hstep
      refine ⟨h.normal, ?_⟩
      rintro d ⟨⟩
      have hbefore := h.own _ rfl
      have hread := hcalm.asFlag?_onParent node
      simp only [Declaration.ofFields, lookup_read] at hbefore ⊢
      cases hseen : seen.lookup Field.onParent with
      | some value =>
        rw [hseen] at hbefore
        exact hbefore
      | none =>
        rw [Option.none_or]
        split
        · next hf => rw [← hf]; exact hread
        · rfl
    · cases hstep
      exact tame_of_idle (fun p hp => h.normal p (List.mem_cons_of_mem node hp)) rfl

/-- The nodes that are astray once the pass has taken a step. -/
def astrayAfter (r : Repository) (astray : List Path) (pass : Pass) : List Path :=
  match pass.candidate? with
  | some d => r.strayed astray d
  | none => astray

theorem Tame.drifts (h : pass.Tame) (hopen : c.Open) (r : Repository) (astray : List Path)
    (stop : Nat → Bool) :
    Catalog.Drifts r c astray r (pass.step r stop c).1 (pass.astrayAfter r astray) := by
  rw [step_fst, astrayAfter]
  cases hd : pass.candidate? with
  | none => exact Catalog.drifts_refl r c astray
  | some d => exact Catalog.drifts_register hopen (h.ownRoot hd) r astray

/-! ## The pass of an activation -/

/-- The pass is about to run its query, or all that is out of line is still to do or astray. -/
def Awaits (watched : Path) (c : Catalog) (r : Repository) (astray : List Path) (pass : Pass) : Prop :=
  pass.report.cancelled = false ∧
    ((∃ queries, [Repository.declarationsQuery watched].mapM Query.parse = .ok queries ∧
        pass = asking [] queries) ∨
      pass.pending = [] ∧ ∀ p, p ∉ pass.todo → p ∉ astray → c.InLineAt r p)

theorem Awaits.drifts {c' : Catalog} {r' : Repository} {astray' : List Path}
    (h : pass.Awaits watched c r astray) (hdrifts : Catalog.Drifts r c astray r' c' astray') :
    pass.Awaits watched c' r' astray' := by
  obtain ⟨hcancelled, hasking | ⟨hpending, hline⟩⟩ := h
  · exact ⟨hcancelled, Or.inl hasking⟩
  · exact ⟨hcancelled, Or.inr ⟨hpending, fun p hp => hdrifts.inLineAt (hline p hp)⟩⟩

/-- How far the pass of an activation got: it still awaits what is out of line, or it has finished and
all that is out of line is astray. A pass that has crashed says nothing. -/
def Progress.Sees (watched : Path) (c : Catalog) (r : Repository) (astray : List Path) :
    Progress → Prop
  | held pass => pass.Awaits watched c r astray
  | ended result => (∃ report, result = .ok report ∧ report.cancelled = false) ∧
      ∀ p, p ∉ astray → c.InLineAt r p
  | crashed => True

theorem Awaits.step (h : pass.Awaits watched c r astray) (htame : pass.Tame) (hopen : c.Open)
    (hword : watched.IsWord) (hcalm : r.Calm watched) (hsound : c.SoundBut r astray) :
    (pass.step r (fun _ => false) c).2.Sees watched (pass.step r (fun _ => false) c).1 r
      (pass.astrayAfter r astray) := by
  have hdrifts := htame.drifts hopen r astray fun _ => false
  obtain ⟨hcancelled, ⟨queries, hparse, rfl⟩ | ⟨hpending, hline⟩⟩ := h
  · obtain ⟨query, hparse', hsearch⟩ := Repository.searchAll_declarations hcalm.reads hword
    obtain rfl : queries = [query] := Except.ok.inj (hparse.symm.trans hparse')
    have hfound : r.search query = .ok (r.declarations watched) := by
      obtain ⟨first, rest, hfirst, hrest, heq⟩ := Repository.searchAll_cons_eq_ok_iff.1 hsearch
      obtain rfl := Except.ok.inj hrest
      rw [hfirst, ← heq, List.append_nil]
    simp only [Pass.step, hfound]
    refine ⟨rfl, Or.inr ⟨rfl, fun p hp hout => ?_⟩⟩
    exact hcalm.inLineAt_of_not_mem hp (hsound.sound p hout)
  · have hkept : ∀ p, p ∉ pass.todo → p ∉ pass.astrayAfter r astray →
        (pass.step r (fun _ => false) c).1.InLineAt r p :=
      fun p hp => hdrifts.inLineAt (hline p hp)
    cases pass with
    | asking found queries =>
      obtain rfl : queries = [] := hpending
      exact ⟨rfl, Or.inr ⟨rfl, hkept⟩⟩
    | polling rest report =>
      cases rest with
      | nil => exact ⟨⟨report, rfl, hcancelled⟩, fun p => hkept p List.not_mem_nil⟩
      | cons p rest =>
        rw [Pass.step, if_neg (by simp)] at hkept ⊢
        exact ⟨hcancelled, Or.inr ⟨rfl, hkept⟩⟩
    | reading node seen rest report =>
      rw [Pass.step] at hdrifts hkept ⊢
      split at hdrifts
      · next f fields hfields =>
        simp only [hfields] at hkept ⊢
        exact ⟨hcancelled, Or.inr ⟨rfl, hkept⟩⟩
      · next hfields =>
        simp only [hfields] at hkept ⊢
        refine ⟨(Report.cancelled_count _ _).trans hcancelled, Or.inr ⟨rfl, fun p hp hout => ?_⟩⟩
        by_cases hnode : p = node
        · -- the candidate is registered now, so its node is in line unless it is astray
          subst hnode
          have hown : (Declaration.ofFields p fun f => (seen.lookup f).join).OwnRoot :=
            htame.ownRoot (by rw [candidate?, if_pos hfields]; rfl)
          rw [astrayAfter, candidate?, if_pos hfields] at hout
          exact (Catalog.inLineAt_register_iff hopen hown r astray).2 hout
        · exact hkept p (fun hmem => (List.mem_cons.1 hmem).elim hnode hp) hout

/-! ## The start -/

/-- What has been read of the candidate at hand is what stands there. -/
def UpToDate (r : Repository) : Pass → Prop
  | reading node seen _ _ => ∀ f value, seen.lookup f = some value → value = r.field? node f
  | asking _ _ | polling _ _ => True

theorem UpToDate.step (h : pass.UpToDate r) {stop : Nat → Bool}
    (hstep : (pass.step r stop c).2 = .held pass') : pass'.UpToDate r := by
  cases pass with
  | asking found queries =>
    cases queries with
    | nil =>
      cases hstep
      trivial
    | cons query queries =>
      rw [Pass.step] at hstep
      split at hstep
      · cases hstep
      · cases hstep
        trivial
  | polling rest report =>
    cases rest with
    | nil => cases hstep
    | cons p rest =>
      rw [Pass.step] at hstep
      split at hstep
      · cases hstep
      · cases hstep
        intro f value hvalue
        cases hvalue
  | reading node seen rest report =>
    rw [Pass.step] at hstep
    split at hstep
    · next f fields hfields =>
      cases hstep
      intro f' value hvalue
      rw [lookup_read, Option.or_eq_some_iff] at hvalue
      rcases hvalue with hvalue | ⟨-, hvalue⟩
      · exact h f' value hvalue
      · obtain ⟨rfl, hvalue⟩ := Option.ite_none_right_eq_some.1 hvalue
        exact (Option.some.inj hvalue).symm
    · cases hstep
      trivial

/-- A candidate that is up to date leads no node astray. -/
theorem UpToDate.astrayAfter_nil (h : pass.UpToDate r) : pass.astrayAfter r [] = [] := by
  rw [astrayAfter]
  cases hd : pass.candidate? with
  | none => rfl
  | some d =>
    obtain ⟨node, seen, rest, report, rfl, hread, rfl⟩ := candidate?_eq_some_iff.1 hd
    have hall : ∀ f, (seen.lookup f).join = r.field? node f := by
      intro f
      obtain ⟨value, hvalue⟩ := exists_of_unread_eq_nil hread f
      rw [hvalue]
      exact h f value hvalue
    have hdeclared : Declaration.ofFields node (fun f => (seen.lookup f).join) =
        r.declaration node := by
      rw [Repository.declaration, funext hall]
    show r.strayed [] (.ofFields node fun f => (seen.lookup f).join) = []
    rw [hdeclared]
    exact if_pos rfl

/-- A pass that starts in an open catalog without mappings leads no node astray on the way to its gate,
and has all that is out of line there still to do. -/
theorem start_awaits (hopen : c.Open) (hword : watched.IsWord) (hcalm : r.Calm watched)
    (hempty : ∀ p, c.lookup p = none) (gate : Option Gate) :
    let result := start r [Repository.declarationsQuery watched] gate c
    result.1.Open ∧ result.1.SoundBut r [] ∧ (∀ pass, result.2 = .held pass → pass.Tame) ∧
      result.2.Sees watched result.1 r [] := by
  have hsound : c.SoundBut r [] :=
    ⟨fun p hp => absurd hp List.not_mem_nil, fun p _ => Or.inl (hempty p)⟩
  obtain ⟨query, hparse, -⟩ := Repository.searchAll_declarations hcalm.reads hword
  rcases leads_start r hparse gate c with hcrash | hleads
  · rw [hcrash]
    exact ⟨hopen, hsound, nofun, trivial⟩
  · let P : Catalog × Progress → Prop := fun s => s.1.Open ∧ s.1.SoundBut r [] ∧
      (∀ pass, s.2 = .held pass → pass.Tame ∧ pass.UpToDate r) ∧ s.2.Sees watched s.1 r []
    have hall : P (start r [Repository.declarationsQuery watched] gate c) := by
      refine hleads.keeps ?_ ⟨hopen, hsound, ?_, rfl, Or.inl ⟨_, hparse, rfl⟩⟩
      · rintro c pass ⟨hopen, hsound, hheld, hawaits⟩
        obtain ⟨htame, hfresh⟩ := hheld pass rfl
        have hdrifts := htame.drifts hopen r [] fun _ => false
        have hsees := Awaits.step hawaits htame hopen hword hcalm hsound
        rw [hfresh.astrayAfter_nil] at hdrifts hsees
        refine ⟨(Catalog.lasting_open (D := fun _ => True)).step r _ pass hopen,
          hdrifts.soundBut hsound, fun pass' hpass' => ?_, hsees⟩
        exact ⟨htame.step hcalm hpass', hfresh.step hpass'⟩
      · rintro _ ⟨⟩
        exact ⟨tame_of_idle (fun p hp => absurd hp List.not_mem_nil) rfl, trivial⟩
    exact ⟨hall.1, hall.2.1, fun pass hpass => (hall.2.2.1 pass hpass).1, hall.2.2.2⟩

/-! ## Passes that are told to stop -/

def AtPoll : Pass → Prop
  | asking _ _ | polling _ _ => True
  | reading _ _ _ _ => False

instance : DecidablePred AtPoll
  | asking _ _ | polling _ _ => isTrue trivial
  | reading _ _ _ _ => isFalse id

end Pass

/-- A cancelled sweep registers nothing and counts nothing. -/
theorem Catalog.sweep_stopped (c : Catalog) (r : Repository) (found : List Path) (report : Report) :
    (c.sweep r (fun _ => true) found report).1 = c ∧
      (c.sweep r (fun _ => true) found report).2.total = report.total := by
  cases found with
  | nil => exact ⟨rfl, rfl⟩
  | cons p found =>
    rw [sweep, if_pos rfl]
    exact ⟨rfl, rfl⟩

theorem Pass.finish_stopped {pass : Pass} (h : pass.AtPoll) (r : Repository) (c : Catalog) :
    (pass.finish r (fun _ => true) c).1 = c := by
  cases pass with
  | asking found queries =>
    rw [finish]
    split
    · rfl
    · exact (Catalog.sweep_stopped c r _ _).1
  | polling rest report => exact (Catalog.sweep_stopped c r rest report).1
  | reading node seen rest report => exact h.elim

end Graft
