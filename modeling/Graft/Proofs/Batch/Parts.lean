import Graft.Proofs.Batch.Order
import Graft.Proofs.Path.Ancestors

/-!
# Batches that come in parts

Who watches several paths is told about a transaction once for each of them, and follows those of
its changes that lie at or below the path. The parts may overlap, so the same change is followed
several times, and no part need hold all changes about a node.

Still no part leads astray: at each root it leaves what is active, or brings what the repository
declares there in the end (`toward_follow`). For a part that holds a removal holds the later writes
below it as well (`Change.lastAsk_of_filter`), so it withdraws nothing that is still declared.
Therefore the parts together change no root twice (`toward_followParts`), and they bring every root
in line as soon as one of them accounts for the whole transaction (`inLine_followParts`).
-/

namespace Graft

/-! ## Parts of the changes -/

namespace Change

variable {p : Path} {changes : List Change} {keep : Change → Bool}

/-- A write of a node is told below the node. -/
theorem isWithin_of_write {change : Change} (h : change.asks p = some .register) :
    change.path.isWithin p = true := by
  obtain ⟨-, hfield, hparent⟩ := asks_eq_register_iff.1 h
  apply Path.isWithin_of_parent hparent
  intro hname
  rw [hname] at hfield
  cases hfield

/-- What is removed last in a part with all writes is removed last in the whole. -/
theorem lastAsk_of_filter
    (hkeep : ∀ change ∈ changes, change.asks p = some .register → keep change = true)
    (h : lastAsk p (changes.filter keep) = some .unregister) :
    lastAsk p changes = some .unregister := by
  induction changes with
  | nil => cases h
  | cons change changes ih =>
    have hrest := ih fun x hx => hkeep x (List.mem_cons_of_mem change hx)
    rw [lastAsk_cons, Option.or_eq_some_iff]
    rw [List.filter_cons] at h
    split at h
    · rw [lastAsk_cons, Option.or_eq_some_iff] at h
      rcases h with hlater | ⟨hsilent, hnow⟩
      · exact Or.inl (hrest hlater)
      · cases hlast : lastAsk p changes with
        | none => exact Or.inr ⟨rfl, hnow⟩
        | some action =>
          cases action with
          | unregister => exact Or.inl rfl
          | register =>
            -- a later write would be in the part
            obtain ⟨x, hx, hasks⟩ := exists_of_lastAsk hlast
            have hkept := List.mem_filter.2 ⟨hx, hkeep x (List.mem_cons_of_mem change hx) hasks⟩
            rw [lastAsk_eq_none_iff.1 hsilent x hkept] at hasks
            cases hasks
    · exact Or.inl (hrest h)

end Change

namespace Repository

variable {r : Repository} {p : Path}

/-- Reads succeed, and what nodes declare they declare at normal forms and for their own paths. -/
structure Plain (r : Repository) : Prop where
  reads : r.failing = false
  regular : r.tree.Regular
  noneOnParent : r.tree.NoneOnParent

theorem Plain.ownRoot (h : r.Plain) (hp : p.isNormal = true) : (r.declaration p).OwnRoot :=
  Repository.ownRoot h.noneOnParent hp

end Repository

namespace Catalog

variable {c c' c₁ : Catalog} {r r' : Repository} {changes : List Change}

/-! ## Toward what is declared -/

/-- At each root either nothing has changed or there is now what the node there declares. -/
structure Toward (r : Repository) (c c' : Catalog) : Prop extends Tells c c' where
  each : ∀ q, c'.lookup q = c.lookup q ∨ c'.lookup q = (r.declaration q).mapping.toOption

namespace Toward

theorem refl (r : Repository) (h : c.Consistent) : Toward r c c :=
  ⟨Tells.refl h, fun _ => Or.inl rfl⟩

theorem isOpen (h : Toward r c c') (hopen : c.Open) : c'.Open :=
  ⟨h.consistent, h.isSealed_eq.trans hopen.unsealed⟩

theorem settled (h : Toward r c c') {q : Path}
    (hq : c.lookup q = (r.declaration q).mapping.toOption) :
    c'.lookup q = (r.declaration q).mapping.toOption := by
  rcases h.each q with hsame | hnow
  · exact hsame.trans hq
  · exact hnow

/-- What has once been brought in line does not change again. -/
theorem trans (h : Toward r c c₁) (h' : Toward r c₁ c') : Toward r c c' := by
  refine ⟨h.toTells.trans h'.toTells fun q => ?_, fun q => ?_⟩
  · rcases h.each q with hsame | hnow
    · exact Or.inl hsame
    · exact Or.inr ((h'.settled hnow).trans hnow.symm)
  · rcases h.each q with hsame | hnow
    · rw [← hsame]
      exact h'.each q
    · exact Or.inr (h'.settled hnow)

end Toward

theorem toward_register (h : c.Open) {d : Declaration} (hd : d.OwnRoot)
    (hdeclared : d = r.declaration d.node) : Toward r c (c.register d).1 := by
  refine ⟨tells_register h.consistent d, fun q => ?_⟩
  rw [h.lookup_register hd]
  split
  · next hq =>
    right
    rw [hq, ← hdeclared]
  · exact Or.inl rfl

theorem toward_unregister (h : c.Open) {p : Path}
    (hgone : (r.declaration p).mapping.toOption = none) : Toward r c (c.unregister p).1 := by
  refine ⟨tells_unregister h.consistent p, fun q => ?_⟩
  rw [h.lookup_unregister]
  split
  · next hq =>
    right
    rw [hq, hgone]
  · exact Or.inl rfl

theorem toward_sweep (h : c.Open) (stop : Nat → Bool) {found : List Path}
    (hown : ∀ p ∈ found, (r.declaration p).OwnRoot) (report : Report) :
    Toward r c (c.sweep r stop found report).1 := by
  induction found generalizing c report with
  | nil => exact Toward.refl r h.consistent
  | cons p found ih =>
    unfold Catalog.sweep
    split
    · exact Toward.refl r h.consistent
    · have hfirst : Toward r c (c.register (r.declaration p)).1 :=
        toward_register h (hown p List.mem_cons_self) rfl
      apply hfirst.trans
      apply ih (hfirst.isOpen h)
      intro q hq
      exact hown q (List.mem_cons_of_mem p hq)

/-- The action is about a node that declares a mapping for its own path, or none any more. -/
def Apt (r : Repository) : Path × Action → Prop
  | (p, .register) => (r.declaration p).OwnRoot
  | (p, .unregister) => (r.declaration p).mapping.toOption = none

theorem toward_act {s : Catalog × Batch.Outcome} (h : s.1.Open) {x : Path × Action}
    (hx : Apt r x) : Toward r s.1 (act r s x).1 := by
  obtain ⟨p, action⟩ := x
  cases action with
  | unregister => exact toward_unregister h hx
  | register =>
    unfold act
    dsimp only
    split
    · exact toward_register h hx rfl
    · exact Toward.refl r h.consistent

theorem toward_foldl_act {s : Catalog × Batch.Outcome} (h : s.1.Open) {order : List (Path × Action)}
    (happt : ∀ x ∈ order, Apt r x) : Toward r s.1 (order.foldl (act r) s).1 := by
  induction order generalizing s with
  | nil => exact Toward.refl r h.consistent
  | cons x order ih =>
    have hfirst := toward_act h (happt x List.mem_cons_self)
    apply hfirst.trans
    apply ih (hfirst.isOpen h)
    intro y hy
    exact happt y (List.mem_cons_of_mem x hy)

theorem toward_carryOut (hr : r.Plain) (h : c.Open) (queries : List String) (plan : Plan)
    {order : List (Path × Action)} (happt : ∀ x ∈ order, Apt r x) :
    Toward r c (c.carryOut r queries plan order).1 := by
  have hacts : Toward r c (order.foldl (act r) (c, .blank)).1 :=
    toward_foldl_act (s := (c, .blank)) h happt
  rw [carryOut, perform_eq hr.reads]
  dsimp only
  split
  · apply hacts.trans
    unfold pass
    split
    · exact Toward.refl r hacts.consistent
    · next found hfound =>
      apply toward_sweep (hacts.isOpen h)
      intro p hp
      exact hr.ownRoot (Repository.isNormal_of_mem_declaring hr.regular hfound hp)
  · exact hacts

/-! ## One part, and all of them -/

/-- Each root has what the node there declares. -/
def InLine (c : Catalog) (r : Repository) : Prop :=
  ∀ q, c.lookup q = (r.declaration q).mapping.toOption

/-- Follows the parts of some changes that the subscriptions are told, one after the other. There is
an order for the actions of each subscription's part. -/
def followParts (c : Catalog) (orders : Nat → Arrangement (Path × Action)) (r : Repository)
    (queries : List String) (changes : List Change) (subscriptions : List Subscription) : Catalog :=
  subscriptions.foldl (fun c s =>
    (c.follow (orders s.id) r queries (Repository.Subscription.batch s changes)).1) c

section Parts

variable {t : Tree} (hr' : r'.Plain) (hacc : Accounts t ⟨r'.tree, changes⟩)

include hr' hacc

/-- What a part asks for is right in the end. -/
theorem apt_of_part (h : c.Consistent) (s : Subscription) :
    ∀ x ∈ (Plan.of c (Repository.Subscription.batch s changes)).actions.entries, Apt r' x := by
  rintro ⟨p, action⟩ hx
  have haction := Table.get?_eq_some_iff.2 hx
  cases action with
  | register =>
    obtain ⟨change, hmem, hasks⟩ := Plan.asks_of_register h haction
    exact hr'.ownRoot (hacc.normal change (List.mem_of_mem_filter hmem) hasks)
  | unregister =>
    have hactive : c.contains p = true := by
      by_contra hfree
      cases (Plan.get?_of_free h hfree haction).1
    rw [Plan.get?_of_active h hactive] at haction
    -- the part holds a removal at or above `p`, hence all that is told below `p`
    obtain ⟨removal, hmem, hasks⟩ := Change.exists_of_lastAsk haction
    have hbelow : p.isWithin s.scope = true :=
      Path.isWithin_trans (Change.asks_eq_unregister_iff.1 hasks).2 (List.mem_filter.1 hmem).2
    have hlast : Change.lastAsk p changes = some .unregister := by
      apply Change.lastAsk_of_filter _ haction
      intro change _ hwrite
      exact Path.isWithin_trans (Change.isWithin_of_write hwrite) hbelow
    exact Repository.toOption_mapping_eq_none hr'.reads (hacc.gone hlast)

theorem toward_follow (h : c.Open) (order : Arrangement (Path × Action)) (queries : List String)
    (s : Subscription) :
    Toward r' c (c.follow order r' queries (Repository.Subscription.batch s changes)).1 := by
  apply toward_carryOut hr' h
  intro x hx
  exact apt_of_part hr' hacc h.consistent s x ((order.perm _).mem_iff.1 hx)

theorem toward_followParts (h : c.Open) (orders : Nat → Arrangement (Path × Action))
    (queries : List String) (subscriptions : List Subscription) :
    Toward r' c (c.followParts orders r' queries changes subscriptions) := by
  induction subscriptions generalizing c with
  | nil => exact Toward.refl r' h.consistent
  | cons s subscriptions ih =>
    have hfirst := toward_follow hr' hacc h (orders s.id) queries s
    exact hfirst.trans (ih (hfirst.isOpen h))

end Parts

section InLine

variable (hr : r.Plain) (hr' : r'.Plain) (hacc : Accounts r.tree ⟨r'.tree, changes⟩)

include hr hr' hacc

/-- A part that accounts for the whole transaction brings every root in line, whatever parts were
followed before. -/
theorem inLine_follow (h : c.Open) (hline : c.InLine r) (hbefore : Toward r' c c₁)
    (order : Arrangement (Path × Action)) (queries : List String) {s : Subscription}
    (hwhole : Accounts r.tree ⟨r'.tree, Repository.Subscription.batch s changes⟩) :
    (c₁.follow order r' queries (Repository.Subscription.batch s changes)).1.InLine r' := by
  intro q
  have hopen := hbefore.isOpen h
  rcases hbefore.each q with hsame | hnow
  · have hlook : c₁.lookup q = (r.declaration q).mapping.toOption := hsame.trans (hline q)
    rw [lookup_eq_iff hr.reads hr.regular hr.noneOnParent] at hlook
    rw [lookup_eq_iff hr'.reads hr'.regular hr'.noneOnParent]
    obtain ⟨-, hback, hserve⟩ := carryOut_keeps hopen hr.reads hr'.reads hr'.regular
      hr'.noneOnParent hwhole queries (order.perm _) q
    exact ⟨hback hlook.1, hserve hlook.2⟩
  · exact (toward_follow hr' hacc hopen order queries s).settled hnow

/-- The parts of a transaction bring a catalog that was in line in line again, if one of them
accounts for all of it. -/
theorem inLine_followParts (h : c.Open) (hline : c.InLine r)
    (orders : Nat → Arrangement (Path × Action)) (queries : List String)
    {subscriptions : List Subscription} {s : Subscription} (hs : s ∈ subscriptions)
    (hwhole : Accounts r.tree ⟨r'.tree, Repository.Subscription.batch s changes⟩) :
    (c.followParts orders r' queries changes subscriptions).InLine r' := by
  intro q
  obtain ⟨before, after, rfl⟩ := List.append_of_mem hs
  have hbefore := toward_followParts hr' hacc h orders queries before
  have hpart := toward_follow hr' hacc (hbefore.isOpen h) (orders s.id) queries s
  have hafter := toward_followParts hr' hacc (hpart.isOpen (hbefore.isOpen h)) orders queries after
  have hline' := inLine_follow hr hr' hacc h hline hbefore (orders s.id) queries hwhole
  rw [followParts, List.foldl_append, List.foldl_cons]
  exact hafter.settled (hline' q)

end InLine

end Catalog

end Graft
