import Graft.Proofs.Catalog.Views
import Graft.Proofs.Repository.Search
import Graft.Proofs.Tree.Edits

/-!
# Catalogs beside a repository

What a catalog has at a root against what the repository declares there, node by node. A catalog is
backed at a root if the node there declares the active mapping (`Backed`), and it serves a node if
the mapping that the node declares is active (`Serves`). A catalog that is backed everywhere and
serves every node shows exactly what the repository declares.

A sweep leaves at each root what the last node that touches it declares (`lookup_sweep_last`). Most
nodes here declare mappings at their own paths. Then a registration concerns its node and no other
(`lookup_register`), and a sweep brings the catalog in line at every node that it finds
(`lookup_sweep`).
-/

namespace Graft

/-! ## What a node declares -/

namespace Declaration

variable {d : Declaration} {m : Mapping}

/-- The declaration of a node at a normal form for its own path. -/
def OwnRoot (d : Declaration) : Prop := d.node.isNormal = true ∧ d.onParent = false

theorem OwnRoot.root?_eq (h : d.OwnRoot) : d.root? = some d.node := by
  simp [root?, h.2, Path.isNormal_iff.1 h.1]

/-- A declared mapping stands at the normal form of the declaration's root. -/
theorem normalize?_of_mapping (h : d.mapping = .ok m) :
    ∃ root, d.root? = some root ∧ root.normalize? = some m.root := by
  obtain ⟨root, -, hroot, -, hnormal, -⟩ := mapping_eq_ok_iff.1 h
  exact ⟨root, hroot, hnormal⟩

theorem toOption_mapping_eq_some_iff : d.mapping.toOption = some m ↔ d.mapping = .ok m := by
  cases d.mapping with
  | error flaw => exact ⟨nofun, nofun⟩
  | ok m' => exact ⟨fun h => congrArg Except.ok (Option.some.inj h), congrArg Except.toOption⟩

theorem source_of_mapping (h : d.mapping = .ok m) : d.source.isSome = true := by
  obtain ⟨-, text, -, hsource, -⟩ := mapping_eq_ok_iff.1 h
  rw [hsource]
  rfl

/-- The mapping that a node declares for its own path is one at this path. -/
theorem OwnRoot.root_of_mapping (hd : d.OwnRoot) (h : d.mapping = .ok m) : m.root = d.node := by
  obtain ⟨root, hroot, hnormal⟩ := normalize?_of_mapping h
  obtain rfl := Option.some.inj (hd.root?_eq.symm.trans hroot)
  rw [Path.isNormal_iff.1 hd.1] at hnormal
  exact (Option.some.inj hnormal).symm

/-- The root at which a registration acts: that of the declared mapping, or the one at which a
flawed declaration withdraws what is there. -/
def target? (d : Declaration) : Option Path :=
  match d.mapping with
  | .ok m => some m.root
  | .error _ => d.root?

theorem OwnRoot.target?_eq (hd : d.OwnRoot) : d.target? = some d.node := by
  unfold target?
  split
  · next m hm => rw [hd.root_of_mapping hm]
  · exact hd.root?_eq

/-- What a registration leaves at its root, where `old` was before: a flaw counts in a sealed
catalog too. -/
def leaves (d : Declaration) (isSealed : Bool) (old : Option Mapping) : Option Mapping :=
  match d.mapping with
  | .ok m => if isSealed then old else some m
  | .error _ => none

theorem leaves_eq_toOption (d : Declaration) (isSealed : Bool) (old : Option Mapping) :
    d.leaves isSealed old = d.mapping.toOption.bind fun m => if isSealed then old else some m := by
  unfold leaves
  cases d.mapping with
  | ok m => rfl
  | error flaw => rfl

@[simp] theorem leaves_false (d : Declaration) (old : Option Mapping) :
    d.leaves false old = d.mapping.toOption := by
  simp [leaves_eq_toOption]

end Declaration

namespace Repository

variable {r r' : Repository} {p : Path} {m : Mapping}

def Declares (r : Repository) (m : Mapping) : Prop :=
  ∃ p, r.tree.contains p = true ∧ (r.declaration p).mapping = .ok m

theorem declares_iff_entries : r.Declares m ↔
    ∃ e ∈ r.tree.entries, (r.declaration e.1).mapping.toOption = some m := by
  constructor
  · rintro ⟨p, hp, hm⟩
    obtain ⟨node, hnode⟩ := Option.isSome_iff_exists.1 hp
    exact ⟨(p, node), Table.get?_eq_some_iff.1 hnode,
      Declaration.toOption_mapping_eq_some_iff.2 hm⟩
  · rintro ⟨⟨p, node⟩, he, hm⟩
    exact ⟨p, Option.isSome_iff_exists.2 ⟨node, Table.get?_eq_some_iff.2 he⟩,
      Declaration.toOption_mapping_eq_some_iff.1 hm⟩

instance (r : Repository) (m : Mapping) : Decidable (r.Declares m) :=
  decidable_of_iff _ declares_iff_entries.symm

/-- Where reads fail, everything counts as absent. -/
theorem field?_of_failing (hr : r.failing = true) (f : Field) : r.field? p f = none := by
  simp only [field?, property?, guardRead, hr]
  rfl

theorem field?_eq (hr : r.failing = false) (p : Path) : r.field? p = r.tree.field p := by
  funext f
  simp only [field?, property?, guardRead, hr]
  rfl

/-- Where reads succeed, a declaration is made of the fields in the tree. -/
theorem declaration_eq (hr : r.failing = false) (p : Path) :
    r.declaration p = .ofFields p (r.tree.field p) := by
  rw [declaration, field?_eq hr]

theorem declaration_congr (hr : r.failing = false) (hr' : r'.failing = false)
    (h : ∀ f, r'.tree.field p f = r.tree.field p f) : r'.declaration p = r.declaration p := by
  rw [declaration_eq hr, declaration_eq hr', funext h]

theorem mapping_ne_ok (hr : r.failing = false) (h : ∀ f, r.tree.field p f = none) :
    (r.declaration p).mapping ≠ .ok m := by
  intro hm
  have hsource := Declaration.source_of_mapping hm
  rw [declaration_eq hr, Declaration.ofFields, h] at hsource
  cases hsource

/-- A node without fields declares nothing. -/
theorem toOption_mapping_eq_none (hr : r.failing = false) (h : ∀ f, r.tree.field p f = none) :
    (r.declaration p).mapping.toOption = none := by
  cases hm : (r.declaration p).mapping with
  | ok m => exact absurd hm (mapping_ne_ok hr h)
  | error flaw => rfl

/-- Where reads fail, nothing is declared. -/
theorem reads_of_mapping (h : (r.declaration p).mapping = .ok m) : r.failing = false := by
  rw [← Bool.not_eq_true]
  intro hr
  have hsource := Declaration.source_of_mapping h
  rw [declaration, Declaration.ofFields, field?_of_failing hr] at hsource
  cases hsource

theorem contains_of_mapping (hr : r.failing = false) (h : (r.declaration p).mapping = .ok m) :
    r.tree.contains p = true := by
  by_contra hnone
  refine mapping_ne_ok hr (fun f => ?_) h
  rw [Bool.not_eq_true, Table.contains, Option.isSome_eq_false_iff, Option.isNone_iff_eq_none]
    at hnone
  rw [Tree.field, hnone]
  rfl

/-- In a regular tree what declares a mapping stands at a normal form. -/
theorem isNormal_of_mapping (hr : r.failing = false) (hreg : r.tree.Regular)
    (h : (r.declaration p).mapping = .ok m) : p.isNormal = true := by
  by_contra hp
  refine mapping_ne_ok hr (fun f => ?_) h
  rw [Tree.field]
  cases hnode : r.tree.get? p with
  | none => rfl
  | some node =>
    have hbare := (hreg p node hnode).resolve_right hp
    rw [hbare]
    rfl

theorem ownRoot (hnone : r.tree.NoneOnParent) (hp : p.isNormal = true) :
    (r.declaration p).OwnRoot := by
  refine ⟨hp, ?_⟩
  show ((r.field? p .onParent).bind Value.asFlag?).getD false = false
  cases hr : r.failing with
  | true =>
    rw [field?_of_failing hr]
    rfl
  | false =>
    rw [field?_eq hr, Tree.field]
    cases hnode : r.tree.get? p with
    | none => rfl
    | some node => exact hnone p node hnode

/-- A node without fields touches its own path. -/
theorem target?_of_bare (hr : r.failing = false) (hp : p.isNormal = true)
    (h : ∀ f, r.tree.field p f = none) : (r.declaration p).target? = some p := by
  have hown : (r.declaration p).OwnRoot := by
    refine ⟨hp, ?_⟩
    rw [declaration_eq hr, Declaration.ofFields, h .onParent]
    rfl
  exact hown.target?_eq

/-- The last of some nodes that touches `q` when all are registered. -/
def lastAt? (r : Repository) (found : List Path) (q : Path) : Option Path :=
  found.reverse.find? fun p => (r.declaration p).target? = some q

theorem lastAt?_cons (p : Path) (found : List Path) (q : Path) : r.lastAt? (p :: found) q =
    (r.lastAt? found q).or (if (r.declaration p).target? = some q then some p else none) := by
  rw [lastAt?, List.reverse_cons, List.find?_append, List.find?_singleton]
  simp only [decide_eq_true_eq]
  rfl

theorem of_lastAt? {found : List Path} {q : Path} (h : r.lastAt? found q = some p) :
    p ∈ found ∧ (r.declaration p).target? = some q := by
  unfold lastAt? at h
  have htarget := List.find?_some h
  exact ⟨List.mem_reverse.1 (List.mem_of_find?_eq_some h), of_decide_eq_true htarget⟩

theorem lastAt?_eq_none_iff {found : List Path} {q : Path} :
    r.lastAt? found q = none ↔ ∀ p ∈ found, (r.declaration p).target? ≠ some q := by
  simp [lastAt?]

theorem lastAt?_append_cons {before later : List Path} {q : Path}
    (hp : (r.declaration p).target? = some q)
    (hlater : ∀ p' ∈ later, (r.declaration p').target? ≠ some q) :
    r.lastAt? (before ++ p :: later) q = some p := by
  induction before with
  | nil =>
    rw [List.nil_append, lastAt?_cons, lastAt?_eq_none_iff.2 hlater, if_pos hp]
    rfl
  | cons p' before ih =>
    rw [List.cons_append, lastAt?_cons, ih]
    rfl

end Repository

theorem Report.cancelled_count (report : Report) (outcome : Catalog.Outcome) :
    (report.count outcome).cancelled = report.cancelled := by
  cases outcome with
  | applied => rfl
  | skipped => rfl
  | rejected flaw => rfl

namespace Catalog

variable {c c' : Catalog} {r : Repository} {p q : Path} {m : Mapping}

/-! ## Registrations -/

theorem lookup_register_target (h : c.Consistent) (d : Declaration) (q : Path) :
    (c.register d).1.lookup q =
      if d.target? = some q then d.leaves c.isSealed (c.lookup q) else c.lookup q := by
  rw [Catalog.register, Declaration.target?, Declaration.leaves]
  cases d.mapping with
  | ok m =>
    dsimp only
    rw [lookup_install h]
    simp only [Option.some.injEq, eq_comm]
  | error flaw =>
    dsimp only
    cases d.root? with
    | none => rfl
    | some root =>
      refine (lookup_unregister h root q).trans ?_
      simp only [Option.some.injEq, eq_comm]

/-- What comes of a registration depends on what is active at its root, and on the seal. -/
theorem register_snd_congr {d : Declaration} (h : c.Consistent) (h' : c'.Consistent)
    (hsealed : c'.isSealed = c.isSealed)
    (hlook : ∀ root, d.target? = some root → c'.lookup root = c.lookup root) :
    (c'.register d).2 = (c.register d).2 := by
  unfold Catalog.register
  unfold Declaration.target? at hlook
  cases hd : d.mapping with
  | ok m =>
    rw [hd] at hlook
    show (c'.install m).2 = (c.install m).2
    rw [install_snd h', install_snd h, hsealed, hlook m.root rfl]
  | error flaw => rfl

/-- A catalog that takes registrations, with its views in agreement. -/
structure Open (c : Catalog) : Prop where
  consistent : c.Consistent
  unsealed : c.isSealed = false

namespace Open

theorem register (h : c.Open) (d : Declaration) : (c.register d).1.Open :=
  ⟨consistent_register h.consistent d, (isSealed_register c d).trans h.unsealed⟩

theorem unregister (h : c.Open) (root : Path) : (c.unregister root).1.Open :=
  ⟨consistent_unregister h.consistent root, (isSealed_unregister c root).trans h.unsealed⟩

theorem lookup_unregister (h : c.Open) (root q : Path) :
    (c.unregister root).1.lookup q = if q = root then none else c.lookup q :=
  Catalog.lookup_unregister h.consistent root q

/-- After a registration the catalog has at the declaration's root what is declared, and nothing
else has changed. -/
theorem lookup_register_target (h : c.Open) (d : Declaration) (q : Path) :
    (c.register d).1.lookup q = if d.target? = some q then d.mapping.toOption else c.lookup q := by
  rw [Catalog.lookup_register_target h.consistent, h.unsealed, Declaration.leaves_false]

/-- A node that declares a mapping at its own path is registered there. -/
theorem lookup_register (h : c.Open) {d : Declaration} (hd : d.OwnRoot) (q : Path) :
    (c.register d).1.lookup q = if q = d.node then d.mapping.toOption else c.lookup q := by
  rw [h.lookup_register_target, hd.target?_eq]
  simp only [Option.some.injEq, eq_comm]

end Open

/-! ## Passes -/

theorem Open.sweep (h : c.Open) (r : Repository) (stop : Nat → Bool) (found : List Path)
    (report : Report) : (c.sweep r stop found report).1.Open := by
  induction found generalizing c report with
  | nil => exact h
  | cons p found ih =>
    unfold Catalog.sweep
    split
    · exact h
    · exact ih (h.register _) _

/-- After a sweep that nobody stops a root has what the last node declares that touches it. A root
that no node touches keeps what it had. -/
theorem lookup_sweep_last (h : c.Open) (r : Repository) (found : List Path) (report : Report)
    (q : Path) : (c.sweep r (fun _ => false) found report).1.lookup q =
      match r.lastAt? found q with
      | some p => (r.declaration p).mapping.toOption
      | none => c.lookup q := by
  induction found generalizing c report with
  | nil => rfl
  | cons p found ih =>
    have hrest := ih (h.register (r.declaration p))
      (report.count (c.register (r.declaration p)).2)
    rw [Catalog.sweep, if_neg (by simp)]
    refine hrest.trans ?_
    rw [h.lookup_register_target, Repository.lastAt?_cons]
    cases r.lastAt? found q with
    | some p' => rfl
    | none =>
      dsimp only
      by_cases hp : (r.declaration p).target? = some q
      · rw [if_pos hp, if_pos hp]
        rfl
      · rw [if_neg hp, if_neg hp]
        rfl

/-- A pass that nobody cancels registers whatever it finds. -/
theorem lookup_sweep (h : c.Open) {found : List Path}
    (hown : ∀ p ∈ found, (r.declaration p).OwnRoot) (report : Report) (q : Path) :
    (c.sweep r (fun _ => false) found report).1.lookup q =
      if q ∈ found then (r.declaration q).mapping.toOption else c.lookup q := by
  rw [lookup_sweep_last h]
  cases hlast : r.lastAt? found q with
  | some p =>
    obtain ⟨hp, htarget⟩ := Repository.of_lastAt? hlast
    -- a node that declares a mapping for its own path touches this path alone
    obtain rfl : p = q := Option.some.inj ((hown p hp).target?_eq.symm.trans htarget)
    exact (if_pos hp).symm
  | none =>
    have hq : q ∉ found := by
      intro hq
      exact Repository.lastAt?_eq_none_iff.1 hlast q hq (hown q hq).target?_eq
    exact (if_neg hq).symm

end Catalog

namespace Repository

variable {r : Repository}

/-- What a pass over the queries reads: nothing if they fail. -/
def reread (r : Repository) (queries : List String) : List Path :=
  match r.declaring queries with
  | .ok found => found
  | .error _ => []

/-- In a regular tree a pass finds nodes at normal forms only. -/
theorem isNormal_of_mem_declaring (hreg : r.tree.Regular) {queries : List String}
    {found : List Path} (h : r.declaring queries = .ok found) {p : Path} (hp : p ∈ found) :
    p.isNormal = true := by
  obtain ⟨node, hnode, htagged⟩ := get?_of_mem_declaring h hp
  exact (hreg p node hnode).resolve_left htagged

theorem isNormal_of_mem_reread (hreg : r.tree.Regular) {queries : List String} {p : Path}
    (hp : p ∈ r.reread queries) : p.isNormal = true := by
  unfold reread at hp
  split at hp
  · next found hfound => exact isNormal_of_mem_declaring hreg hfound hp
  · exact absurd hp List.not_mem_nil

end Repository

namespace Catalog

variable {c : Catalog} {r : Repository} {p : Path}

/-- A pass leaves at a root what the last node declares that it reads and that touches it. -/
theorem lookup_pass_last (h : c.Open) (r : Repository) (queries : List String) (q : Path) :
    (c.pass r queries fun _ => false).1.lookup q =
      match r.lastAt? (r.reread queries) q with
      | some p => (r.declaration p).mapping.toOption
      | none => c.lookup q := by
  unfold Repository.reread pass
  cases r.declaring queries with
  | error e => rfl
  | ok found => exact lookup_sweep_last h r found .blank q

theorem lookup_pass (h : c.Open) {queries : List String}
    (hown : ∀ p ∈ r.reread queries, (r.declaration p).OwnRoot) (q : Path) :
    (c.pass r queries fun _ => false).1.lookup q =
      if q ∈ r.reread queries then (r.declaration q).mapping.toOption else c.lookup q := by
  unfold Repository.reread at hown ⊢
  unfold pass
  cases hfound : r.declaring queries with
  | error e => exact (if_neg List.not_mem_nil).symm
  | ok found =>
    simp only [hfound] at hown
    exact lookup_sweep h hown .blank q

/-! ## What is active against what is declared -/

/-- If a mapping is active at `root` then the node there declares it. -/
def Backed (c : Catalog) (r : Repository) (root : Path) : Prop :=
  ∀ m, c.lookup root = some m → (r.declaration root).mapping = .ok m

/-- If there is a node at `p` that declares a mapping then the mapping is active. -/
def Serves (c : Catalog) (r : Repository) (p : Path) : Prop :=
  ∀ m, r.tree.contains p = true → (r.declaration p).mapping = .ok m → c.lookup m.root = some m

def Sound (c : Catalog) (r : Repository) : Prop := ∀ root, c.Backed r root

def Complete (c : Catalog) (r : Repository) : Prop := ∀ p, c.Serves r p

/-- The active mappings are those that some node declares. -/
def Exact (c : Catalog) (r : Repository) : Prop := ∀ m, m ∈ c.mappings ↔ r.Declares m

theorem exact_iff_entries : c.Exact r ↔ (∀ m ∈ c.mappings, r.Declares m) ∧
    ∀ e ∈ r.tree.entries, ∀ m ∈ (r.declaration e.1).mapping.toOption, m ∈ c.mappings := by
  constructor
  · intro h
    exact ⟨fun m => (h m).1, fun e he m hm =>
      (h m).2 (Repository.declares_iff_entries.2 ⟨e, he, hm⟩)⟩
  · rintro ⟨hsound, hcomplete⟩ m
    refine ⟨hsound m, fun hm => ?_⟩
    obtain ⟨e, he, hm⟩ := Repository.declares_iff_entries.1 hm
    exact hcomplete e he m hm

instance (c : Catalog) (r : Repository) : Decidable (c.Exact r) :=
  decidable_of_iff _ exact_iff_entries.symm

/-- Where nodes declare mappings at their own paths only, a catalog that shows what is declared
shows at each root what the node there declares. -/
theorem exact_iff_lookup (h : c.Consistent) (hreg : r.tree.Regular) (hnone : r.tree.NoneOnParent) :
    c.Exact r ↔ ∀ q, c.lookup q = (r.declaration q).mapping.toOption := by
  have hown : ∀ {q m}, (r.declaration q).mapping = .ok m → m.root = q := by
    intro q m hm
    have hnormal := Repository.isNormal_of_mapping (Repository.reads_of_mapping hm) hreg hm
    exact (Repository.ownRoot hnone hnormal).root_of_mapping hm
  have hdeclares : ∀ m, r.Declares m ↔ (r.declaration m.root).mapping = .ok m := by
    intro m
    constructor
    · rintro ⟨p, -, hp⟩
      rw [hown hp]
      exact hp
    · intro hm
      exact ⟨m.root, Repository.contains_of_mapping (Repository.reads_of_mapping hm) hm, hm⟩
  constructor
  · intro hexact q
    apply Option.ext
    intro m
    rw [Declaration.toOption_mapping_eq_some_iff]
    constructor
    · intro hm
      obtain rfl : m.root = q := h.visible_root_eq hm
      exact (hdeclares m).1 ((hexact m).1 ((mem_mappings_iff h).2 hm))
    · intro hm
      obtain rfl := hown hm
      exact (mem_mappings_iff h).1 ((hexact m).2 ((hdeclares m).2 hm))
  · intro hlook m
    rw [mem_mappings_iff h, hlook, Declaration.toOption_mapping_eq_some_iff, hdeclares]

/-- A root is backed once it has what the node there declares. -/
theorem Backed.of_lookup (h : c.lookup p = (r.declaration p).mapping.toOption) : c.Backed r p := by
  intro m hm
  rw [h] at hm
  exact Declaration.toOption_mapping_eq_some_iff.1 hm

/-- A root has what the node there declares exactly if it is backed and the node is served. -/
theorem lookup_eq_iff (hr : r.failing = false) (hreg : r.tree.Regular) (hnone : r.tree.NoneOnParent) :
    c.lookup p = (r.declaration p).mapping.toOption ↔ c.Backed r p ∧ c.Serves r p := by
  have hown : ∀ {m}, (r.declaration p).mapping = .ok m → m.root = p := fun hm =>
    (Repository.ownRoot hnone (Repository.isNormal_of_mapping hr hreg hm)).root_of_mapping hm
  constructor
  · intro h
    refine ⟨Backed.of_lookup h, fun m _ hm => ?_⟩
    rw [hown hm, h, hm]
    rfl
  · rintro ⟨hback, hserve⟩
    apply Option.ext
    intro m
    rw [Declaration.toOption_mapping_eq_some_iff]
    constructor
    · exact hback m
    · intro hm
      have hlook := hserve m (Repository.contains_of_mapping hr hm) hm
      rw [hown hm] at hlook
      exact hlook

end Catalog

end Graft
