import Graft.Proofs.Catalog.Lasting

/-!
# Passes step by step

A pass in progress can be set aside at any place and go on later: before a query, before a poll, before
a field of a candidate is read, or after the last field and before the candidate is registered. A step
takes it from one place to the next (`Pass.step`).

A pass that runs to its end takes steps until it is there (`leads_finish`), and a pass that is started
and held at a gate has come there by steps (`leads_start`). So whatever a step keeps is kept by passes,
wherever they are held and however often (`Leads.keeps`). The catalog is touched by one kind of step
only, the registration of a candidate (`step_fst`).
-/

namespace Graft

namespace Pass

variable {c : Catalog} {r : Repository} {stop : Nat → Bool} {s t u : Catalog × Progress}

/-! ## Steps -/

def unread (seen : List (Field × Option Value)) : List Field :=
  Field.all.filter fun f => (seen.lookup f).isNone

/-- What a pass has read of the candidate at hand. -/
def gathered? : Pass → Option Declaration
  | reading node seen _ _ => some (.ofFields node fun f => (seen.lookup f).join)
  | asking _ _ | polling _ _ => none

/-- The candidate that the next step registers, if that is what it does. -/
def candidate? : Pass → Option Declaration
  | reading node seen rest report =>
    if unread seen = [] then (reading node seen rest report).gathered? else none
  | asking _ _ | polling _ _ => none

/-- Takes a pass to the next place at which it can be set aside. -/
def step (r : Repository) (stop : Nat → Bool) (c : Catalog) : Pass → Catalog × Progress
  | asking found [] => (c, .held (polling found .blank))
  | asking found (query :: queries) =>
    match r.search query with
    | .error e => (c, .ended (.error (.repository e)))
    | .ok more => (c, .held (asking (found ++ more) queries))
  | polling [] report => (c, .ended (.ok report))
  | polling (p :: rest) report =>
    if stop report.total then (c, .ended (.ok { report with cancelled := true }))
    else (c, .held (reading p [] rest report))
  | reading node seen rest report =>
    match unread seen with
    | f :: _ => (c, .held (reading node (seen ++ [(f, r.field? node f)]) rest report))
    | [] =>
      let (c, outcome) := c.register (.ofFields node fun f => (seen.lookup f).join)
      (c, .held (polling rest (report.count outcome)))

theorem candidate?_eq_some_iff {pass : Pass} {d : Declaration} : pass.candidate? = some d ↔
    ∃ node seen rest report, pass = reading node seen rest report ∧ unread seen = [] ∧
      d = .ofFields node fun f => (seen.lookup f).join := by
  cases pass with
  | asking found queries => simp [candidate?]
  | polling rest report => simp [candidate?]
  | reading node seen rest report =>
    rw [candidate?, Option.ite_none_right_eq_some]
    constructor
    · rintro ⟨hread, ⟨⟩⟩
      exact ⟨node, seen, rest, report, rfl, hread, rfl⟩
    · rintro ⟨_, _, _, _, ⟨⟩, hread, rfl⟩
      exact ⟨hread, rfl⟩

theorem exists_of_unread_eq_nil {seen : List (Field × Option Value)} (h : unread seen = [])
    (f : Field) : ∃ value, seen.lookup f = some value := by
  have hmem : f ∈ Field.all := by cases f <;> decide
  have hseen := List.filter_eq_nil_iff.1 h f hmem
  cases hvalue : seen.lookup f with
  | none => simp [hvalue] at hseen
  | some value => exact ⟨value, rfl⟩

theorem step_fst (r : Repository) (stop : Nat → Bool) (c : Catalog) (pass : Pass) :
    (pass.step r stop c).1 =
      match pass.candidate? with
      | some d => (c.register d).1
      | none => c := by
  cases pass with
  | asking found queries =>
    cases queries with
    | nil => rfl
    | cons query queries =>
      rw [step]
      split
      · rfl
      · rfl
  | polling rest report =>
    cases rest with
    | nil => rfl
    | cons p rest =>
      rw [step]
      split
      · rfl
      · rfl
  | reading node seen rest report =>
    rw [step, candidate?]
    cases unread seen with
    | nil => rfl
    | cons f fields => rfl

theorem step_ne_crashed (r : Repository) (stop : Nat → Bool) (c : Catalog) (pass : Pass) :
    (pass.step r stop c).2 ≠ .crashed := by
  unfold step
  split
  · exact nofun
  · split
    · exact nofun
    · exact nofun
  · exact nofun
  · split
    · exact nofun
    · exact nofun
  · split
    · exact nofun
    · exact nofun

/-- What comes of a pass by steps, while the repository stays as it is. -/
inductive Leads (r : Repository) (stop : Nat → Bool) :
    Catalog × Progress → Catalog × Progress → Prop where
  | refl (s : Catalog × Progress) : Leads r stop s s
  | step {c pass t} : Leads r stop (pass.step r stop c) t → Leads r stop (c, .held pass) t

namespace Leads

theorem trans (h : Leads r stop s t) (h' : Leads r stop t u) : Leads r stop s u := by
  induction h with
  | refl s => exact h'
  | step _ ih => exact .step (ih h')

/-- What steps keep is kept along the way. -/
theorem keeps {P : Catalog × Progress → Prop} (h : Leads r stop s t)
    (hstep : ∀ c pass, P (c, .held pass) → P (pass.step r stop c)) (hs : P s) : P t := by
  induction h with
  | refl s => exact hs
  | step _ ih => exact ih (hstep _ _ hs)

end Leads

/-! ## To the end -/

theorem lookup_read (seen : List (Field × Option Value)) (f f' : Field) (value : Option Value) :
    (seen ++ [(f, value)]).lookup f' =
      (seen.lookup f').or (if f' = f then some value else none) := by
  rw [List.lookup_append]
  congr 1
  simp [Table.lookup_cons_eq_ite]

theorem unread_read {seen : List (Field × Option Value)} {f : Field} {fields : List Field}
    (h : unread seen = f :: fields) (value : Option Value) :
    unread (seen ++ [(f, value)]) = fields := by
  have hnodup : (f :: fields).Nodup := h ▸ List.Nodup.filter _ (by decide)
  have hrest : unread (seen ++ [(f, value)]) = (unread seen).filter (· ≠ f) := by
    rw [unread, unread, List.filter_filter]
    refine List.filter_congr fun f' _ => ?_
    rw [lookup_read]
    by_cases hf : f' = f
    · simp [hf]
    · simp [hf]
  rw [hrest, h, List.filter_cons, if_neg (by simp), List.filter_eq_self]
  intro f' hf'
  have hne : f' ≠ f := fun heq => (List.nodup_cons.1 hnodup).1 (heq ▸ hf')
  simpa using hne

/-- A candidate is read and registered, whatever has been read of it before. -/
theorem leads_reading (r : Repository) (stop : Nat → Bool) (c : Catalog) (node : Path)
    (seen : List (Field × Option Value)) (rest : List Path) (report : Report) :
    let registered := c.register (.ofFields node fun f => (seen.lookup f).getD (r.field? node f))
    Leads r stop (c, .held (reading node seen rest report))
      (registered.1, .held (polling rest (report.count registered.2))) := by
  generalize hfields : unread seen = fields
  induction fields generalizing seen with
  | nil =>
    have hall : ∀ f, ((seen.lookup f).getD (r.field? node f)) = (seen.lookup f).join := by
      intro f
      obtain ⟨value, hvalue⟩ := exists_of_unread_eq_nil hfields f
      rw [hvalue]
      rfl
    refine .step ?_
    simp only [step, hfields, hall]
    exact .refl _
  | cons f fields ih =>
    have hsame : ∀ f', ((seen ++ [(f, r.field? node f)]).lookup f').getD (r.field? node f') =
        (seen.lookup f').getD (r.field? node f') := by
      intro f'
      rw [lookup_read]
      cases seen.lookup f' with
      | some value => rfl
      | none =>
        dsimp only [Option.none_or]
        split
        · next hf => rw [hf]; rfl
        · rfl
    refine .step ?_
    simp only [step, hfields]
    have hnext := ih (seen ++ [(f, r.field? node f)]) (unread_read hfields _)
    simp only [hsame] at hnext
    exact hnext

/-- A sweep is a run of steps. -/
theorem leads_polling (r : Repository) (stop : Nat → Bool) (c : Catalog) (rest : List Path)
    (report : Report) : Leads r stop (c, .held (polling rest report))
      ((c.sweep r stop rest report).1, .ended (.ok (c.sweep r stop rest report).2)) := by
  induction rest generalizing c report with
  | nil => exact .step (.refl _)
  | cons p rest ih =>
    refine .step ?_
    rw [step, Catalog.sweep]
    split
    · exact .refl _
    · exact (leads_reading r stop c p [] rest report).trans (ih _ _)

theorem leads_asking (r : Repository) (stop : Nat → Bool) (c : Catalog) (found : List Path)
    (queries : List Query) : Leads r stop (c, .held (asking found queries))
      (c, match r.searchAll queries with
        | .error e => .ended (.error e)
        | .ok more => .held (polling (found ++ more) .blank)) := by
  induction queries generalizing found with
  | nil =>
    refine .step ?_
    rw [step, Repository.searchAll]
    dsimp only
    rw [List.append_nil]
    exact .refl _
  | cons query queries ih =>
    refine .step ?_
    rw [step, Repository.searchAll]
    cases r.search query with
    | error e => exact .refl _
    | ok more =>
      have hrest := ih (found ++ more)
      dsimp only
      cases hall : r.searchAll queries with
      | error e =>
        rw [hall] at hrest
        exact hrest
      | ok later =>
        rw [hall] at hrest
        dsimp only [Except.map] at hrest ⊢
        rw [← List.append_assoc]
        exact hrest

theorem leads_finish (r : Repository) (stop : Nat → Bool) (c : Catalog) (pass : Pass) :
    Leads r stop (c, .held pass) ((pass.finish r stop c).1, .ended (pass.finish r stop c).2) := by
  cases pass with
  | asking found queries =>
    have hasked := leads_asking r stop c found queries
    rw [finish]
    cases hsearch : r.searchAll queries with
    | error e =>
      rw [hsearch] at hasked
      exact hasked
    | ok more =>
      rw [hsearch] at hasked
      exact hasked.trans (leads_polling r stop c _ .blank)
  | polling rest report => exact leads_polling r stop c rest report
  | reading node seen rest report =>
    exact (leads_reading r stop c node seen rest report).trans (leads_polling r stop _ rest _)

/-! ## To a gate -/

theorem leads_first (r : Repository) (c : Catalog) (first rest : List Path) (report : Report) :
    let swept := c.sweep r (fun _ => false) first report
    Leads r (fun _ => false) (c, .held (polling (first ++ rest) report))
      (swept.1, .held (polling rest swept.2)) := by
  induction first generalizing c report with
  | nil => exact .refl _
  | cons p first ih =>
    refine .step ?_
    rw [List.cons_append, step, Catalog.sweep, if_neg (by simp), if_neg (by simp)]
    exact (leads_reading r _ c p [] (first ++ rest) report).trans (ih _ _)

theorem leads_upTo {queries : List Query} {found : List Path}
    (hfound : r.searchAll queries = .ok found) (n : Nat) (c : Catalog) :
    Leads r (fun _ => false) (c, .held (asking [] queries))
      ((upTo n r c found).1, .held (polling (upTo n r c found).2.2 (upTo n r c found).2.1)) := by
  have hasked := leads_asking r (fun _ => false) c [] queries
  rw [hfound] at hasked
  have hfirst := leads_first r c (found.take n) (found.drop n) .blank
  rw [List.take_append_drop] at hfirst
  exact hasked.trans hfirst

/-- A candidate is read up to one of its fields. -/
theorem leads_reads (r : Repository) (stop : Nat → Bool) (c : Catalog) (node : Path)
    (rest : List Path) (report : Report) {n : Nat} (hn : n < Field.all.length) :
    Leads r stop (c, .held (reading node [] rest report))
      (c, .held (reading node ((Field.all.take n).map fun f => (f, r.field? node f)) rest report)) := by
  match n, hn with
  | 0, _ => exact .refl _
  | 1, _ => exact .step (.refl _)
  | 2, _ => exact .step (.step (.refl _))

/-- A pass over queries that can be read comes to its gate by steps, unless the first query makes it
crash. -/
theorem leads_start (r : Repository) {queries : List String} {parsed : List Query}
    (hparsed : queries.mapM Query.parse = .ok parsed) (gate : Option Gate) (c : Catalog) :
    start r queries gate c = (c, .crashed) ∨
      Leads r (fun _ => false) (c, .held (asking [] parsed)) (start r queries gate c) := by
  have hend : Leads r (fun _ => false) (c, .held (asking [] parsed))
      ((c.pass r queries fun _ => false).1, .ended (c.pass r queries fun _ => false).2) := by
    have hfinish := leads_finish r (fun _ => false) c (asking [] parsed)
    have hdeclaring : r.declaring queries = r.searchAll parsed := by
      rw [Repository.declaring, hparsed]
      rfl
    rw [finish] at hfinish
    rw [Catalog.pass, hdeclaring]
    cases hsearch : r.searchAll parsed with
    | error e =>
      rw [hsearch] at hfinish
      exact hfinish
    | ok found =>
      rw [hsearch] at hfinish
      exact hfinish
  unfold start
  rw [hparsed]
  dsimp only
  split
  · next heq =>
    obtain rfl := Except.ok.inj heq
    exact Or.inr (.refl _)
  · exact Or.inl rfl
  · next n _ heq =>
    obtain rfl := Except.ok.inj heq
    cases hsearch : r.searchAll parsed with
    | error e => exact Or.inr hend
    | ok found =>
      right
      have hpoll := leads_upTo hsearch n c
      dsimp only
      generalize upTo n r c found = begun at hpoll ⊢
      obtain ⟨c', report, rest⟩ := begun
      cases rest with
      | nil => exact hend
      | cons node rest => exact hpoll
  · next n _ heq =>
    obtain rfl := Except.ok.inj heq
    cases hsearch : r.searchAll parsed with
    | error e => exact Or.inr hend
    | ok found =>
      right
      have hpoll := leads_upTo hsearch (n / Field.all.length) c
      dsimp only
      generalize upTo (n / Field.all.length) r c found = begun at hpoll ⊢
      obtain ⟨c', report, rest⟩ := begun
      cases rest with
      | nil => exact hend
      | cons node rest =>
        have hread := leads_reads r (fun _ => false) c' node rest report
          (Nat.mod_lt n (by decide))
        exact hpoll.trans (.step hread)
  · exact Or.inr hend

/-- A query that cannot be read ends a pass at once. -/
theorem start_of_malformed (r : Repository) {queries : List String} {error : PassError}
    (hparsed : queries.mapM Query.parse = .error error) (gate : Option Gate) (c : Catalog) :
    start r queries gate c = (c, .ended (.error error)) := by
  have hpass : c.pass r queries (fun _ => false) = (c, .error error) := by
    have hdeclaring : r.declaring queries = .error error := by
      rw [Repository.declaring, hparsed]
      rfl
    rw [Catalog.pass, hdeclaring]
  unfold start
  rw [hparsed, hpass]
  dsimp only
  cases gate with
  | none => rfl
  | some gate => cases gate <;> rfl

/-! ## Nobody cancels -/

def report : Pass → Report
  | asking _ _ => .blank
  | polling _ report => report
  | reading _ _ _ report => report

def Progress.Uncancelled : Progress → Prop
  | ended result => ∀ report, result = .ok report → report.cancelled = false
  | held pass => pass.report.cancelled = false
  | crashed => True

/-- A step cancels a pass only if the pass is told to stop, and then it is the last one. -/
theorem step_uncancelled_or (r : Repository) (stop : Nat → Bool) (c : Catalog) {pass : Pass}
    (h : pass.report.cancelled = false) : (pass.step r stop c).2.Uncancelled ∨
      stop pass.report.total = true ∧ ∃ result, (pass.step r stop c).2 = .ended result := by
  cases pass with
  | asking found queries =>
    left
    cases queries with
    | nil => rfl
    | cons query queries =>
      rw [step]
      split
      · exact nofun
      · rfl
  | polling rest report =>
    cases rest with
    | nil =>
      left
      rintro _ ⟨⟩
      exact h
    | cons p rest =>
      rw [step]
      split
      · next hstop => exact Or.inr ⟨hstop, _, rfl⟩
      · exact Or.inl h
  | reading node seen rest report =>
    left
    rw [step]
    split
    · exact h
    · exact (Report.cancelled_count _ _).trans h

theorem step_uncancelled (r : Repository) (c : Catalog) {pass : Pass}
    (h : pass.report.cancelled = false) : (pass.step r (fun _ => false) c).2.Uncancelled :=
  (step_uncancelled_or r _ c h).resolve_right fun hstop => nomatch hstop.1

theorem uncancelled_of_step {pass pass' : Pass} (h : pass.report.cancelled = false)
    (hstep : (pass.step r stop c).2 = .held pass') : pass'.report.cancelled = false := by
  have hheld := step_uncancelled_or r stop c h
  rw [hstep] at hheld
  exact hheld.resolve_right fun hended => nomatch hended.2

theorem start_uncancelled (r : Repository) (queries : List String) (gate : Option Gate)
    (c : Catalog) : (start r queries gate c).2.Uncancelled := by
  cases hparsed : queries.mapM Query.parse with
  | error error =>
    rw [start_of_malformed r hparsed]
    exact nofun
  | ok parsed =>
    rcases leads_start r hparsed gate c with hcrash | hleads
    · rw [hcrash]
      trivial
    · exact hleads.keeps (P := fun s => s.2.Uncancelled) (fun c _ h => step_uncancelled r c h) rfl

end Pass

/-! ## What passes keep -/

namespace Catalog.Lasting

variable {c : Catalog} {I : Catalog → Prop}

-- a pass that waits while it reads a node registers what stood there then, so nothing less than
-- all registrations will do
variable (hI : Lasting (fun _ => True) I) (r : Repository)

include hI

theorem step (stop : Nat → Bool) (pass : Pass) (h : I c) : I (pass.step r stop c).1 := by
  rw [Pass.step_fst]
  split
  · exact hI.register trivial h
  · exact h

theorem start (queries : List String) (gate : Option Pass.Gate) (h : I c) :
    I (Pass.start r queries gate c).1 := by
  cases hparsed : queries.mapM Query.parse with
  | error error =>
    rw [Pass.start_of_malformed r hparsed]
    exact h
  | ok parsed =>
    rcases Pass.leads_start r hparsed gate c with hcrash | hleads
    · rw [hcrash]
      exact h
    · exact hleads.keeps (P := fun s => I s.1) (fun _ pass h => hI.step r _ pass h) h

end Catalog.Lasting

end Graft
