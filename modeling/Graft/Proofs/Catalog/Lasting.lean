import Graft.Batch
import Graft.Proofs.Catalog.Declared

/-!
# What passes and batches keep

Passes and batches touch a catalog by registrations and unregistrations only. A property of catalogs
that these two keep is therefore kept by all of them, whether or not they come to their ends.

What is registered on the way is read from the repository. So a property need only be kept by the
registrations of what the nodes of the repository declare.
-/

namespace Graft.Catalog

variable {c : Catalog} {r : Repository} {D : Declaration → Prop} {I : Catalog → Prop}

/-- A property of catalogs that unregistrations keep, and the registrations of the declarations
in `D`. -/
structure Lasting (D : Declaration → Prop) (I : Catalog → Prop) : Prop where
  register : ∀ {c d}, D d → I c → I (c.register d).1
  unregister : ∀ {c} root, I c → I (c.unregister root).1

namespace Lasting

theorem sweep (hI : Lasting D I) (stop : Nat → Bool) {found : List Path}
    (hfound : ∀ p ∈ found, D (r.declaration p)) (report : Report) (h : I c) :
    I (c.sweep r stop found report).1 := by
  induction found generalizing c report with
  | nil => exact h
  | cons p found ih =>
    unfold Catalog.sweep
    split
    · exact h
    · apply ih
      · intro q hq
        exact hfound q (List.mem_cons_of_mem p hq)
      · exact hI.register (hfound p List.mem_cons_self) h

section

variable (hI : Lasting D I) (hD : ∀ p, r.tree.contains p = true → D (r.declaration p))

include hI hD

theorem pass (queries : List String) (stop : Nat → Bool) (h : I c) :
    I (c.pass r queries stop).1 := by
  unfold Catalog.pass
  split
  · exact h
  · next found hfound =>
    exact hI.sweep stop (fun p hp => hD p (Repository.contains_of_mem_declaring hfound hp)) _ h

theorem perform (order : List (Path × Action)) (out : Batch.Outcome) (h : I c) :
    I (c.perform r order out).1 := by
  induction order generalizing c out with
  | nil => exact h
  | cons x order ih =>
    obtain ⟨p, action⟩ := x
    cases action with
    | unregister => exact ih _ (hI.unregister p h)
    | register =>
      unfold Catalog.perform
      split
      · exact h
      · exact ih out h
      · next hhas =>
        have hp : r.tree.contains p = true := by
          unfold Repository.has Repository.guardRead at hhas
          split at hhas
          · cases hhas
          · exact Except.ok.inj hhas
        exact ih _ (hI.register (hD p hp) h)

/-- What holds once the actions are carried out holds after the pass that may follow. -/
theorem carryOut_of_perform (queries : List String) (plan : Plan) {order : List (Path × Action)}
    (hperform : I (c.perform r order .blank).1) : I (c.carryOut r queries plan order).1 := by
  unfold Catalog.carryOut
  split
  · next heq => rw [heq] at hperform; exact hperform
  · next heq =>
    rw [heq] at hperform
    split
    · exact hI.pass hD queries _ hperform
    · exact hperform

theorem carryOut (queries : List String) (plan : Plan) (order : List (Path × Action)) (h : I c) :
    I (c.carryOut r queries plan order).1 :=
  hI.carryOut_of_perform hD queries plan (hI.perform hD order .blank h)

theorem follow (order : Arrangement (Path × Action)) (queries : List String) (batch : List Change)
    (h : I c) : I (c.follow order r queries batch).1 :=
  hI.carryOut hD queries _ _ h

end

end Lasting

theorem lasting_consistent : Lasting D Consistent where
  register _ h := consistent_register h _
  unregister root h := consistent_unregister h root

theorem lasting_open : Lasting D Open where
  register _ h := h.register _
  unregister root h := h.unregister root

/-- A sealed catalog without mappings stays as it is. -/
theorem lasting_shut {c : Catalog} (h : c.Consistent) (hsealed : c.isSealed = true)
    (hempty : c.visible = .empty) : Lasting (fun _ => True) (· = c) := by
  have hunregister : ∀ root, (c.unregister root).1 = c := by
    intro root
    have hfree : c.lookup root = none := by
      rw [lookup, hempty]
      rfl
    rw [unregister_of_free h hfree]
  constructor
  · rintro _ d - rfl
    unfold register
    split
    · rw [install, if_pos hsealed]
    · dsimp only
      split
      · exact hunregister _
      · rfl
  · rintro _ root rfl
    exact hunregister root

end Graft.Catalog
