import Graft.Proofs.Catalog.History

/-!
# A catalog is a finite map

The ledger is what a catalog is about and nothing else: a map from roots to mappings and a flag. Its
operations say the rules in full. A catalog in any history answers like the ledger with the same
history, to every operation and to every question, and its board shows what the ledger holds.
-/

namespace Graft

/-- A map from roots to mappings that may be closed to new ones. -/
structure Ledger where
  map : Table Path Mapping
  isSealed : Bool

namespace Ledger

def empty : Ledger := ⟨.empty, false⟩

/-- Enters a mapping at its root, unless the ledger is sealed or has that mapping. -/
def install (l : Ledger) (m : Mapping) : Ledger × Catalog.Outcome :=
  if l.isSealed ∨ l.map.get? m.root = some m then (l, .skipped)
  else ({ l with map := l.map.insert m.root m }, .applied)

/-- Enters what a declaration declares. A flawed one crosses out what stands at its root. -/
def register (l : Ledger) (d : Declaration) : Ledger × Catalog.Outcome :=
  match d.mapping with
  | .ok m => l.install m
  | .error flaw =>
    match d.root? with
    | some root => ({ l with map := l.map.erase root }, .rejected flaw)
    | none => (l, .rejected flaw)

def step (l : Ledger) : Catalog.Op → Ledger × Catalog.Reply
  | .register d => let (l, o) := l.register d; (l, .outcome o)
  | .install m => let (l, o) := l.install m; (l, .outcome o)
  | .unregister root =>
    ({ l with map := l.map.erase root }, .flag (l.map.contains root))
  | .clear _ => ({ l with map := .empty }, .count l.map.size)
  | .close => ({ l with isSealed := true }, .nothing)
  | .reopen => ({ l with isSealed := false }, .nothing)

end Ledger

namespace Catalog

/-- The views of the catalog agree, and readers see what the ledger holds. -/
structure Represents (c : Catalog) (l : Ledger) : Prop where
  consistent : c.Consistent
  visible_eq : c.visible = l.map
  sealed_eq : c.isSealed = l.isSealed

namespace Represents

variable {c : Catalog} {l : Ledger}

theorem install (h : Represents c l) (m : Mapping) :
    (c.install m).2 = (l.install m).2 ∧ Represents (c.install m).1 (l.install m).1 := by
  have hsnd := install_snd h.consistent m
  have hvis := visible_install h.consistent m
  have hcons := consistent_install h.consistent m
  have hseal := isSealed_install c m
  rw [lookup, h.visible_eq, h.sealed_eq] at hsnd
  rw [h.visible_eq, h.sealed_eq] at hvis
  rw [h.sealed_eq] at hseal
  unfold Ledger.install
  split
  · next hskip =>
    rw [if_pos hskip] at hsnd
    refine ⟨hsnd, hcons, ?_, hseal⟩
    rw [hvis]
    split
    · rfl
    · next hopen =>
      have hpresent := hskip.resolve_left hopen
      refine Table.ext_get? fun p => ?_
      rw [Table.get?_insert]
      split
      · next hp => rw [hp, hpresent]
      · rfl
  · next hnew =>
    rw [if_neg hnew] at hsnd
    rw [not_or] at hnew
    rw [if_neg hnew.1] at hvis
    exact ⟨hsnd, hcons, hvis, hseal⟩

theorem unregister (h : Represents c l) (root : Path) :
    Represents (c.unregister root).1 { l with map := l.map.erase root } where
  consistent := consistent_unregister h.consistent root
  visible_eq := by rw [visible_unregister h.consistent, h.visible_eq]
  sealed_eq := by rw [isSealed_unregister, h.sealed_eq]

theorem register (h : Represents c l) (d : Declaration) :
    (c.register d).2 = (l.register d).2 ∧ Represents (c.register d).1 (l.register d).1 := by
  cases hd : d.mapping with
  | ok m =>
    simp only [Catalog.register, Ledger.register, hd]
    exact h.install m
  | error flaw =>
    cases hroot : d.root? with
    | some root =>
      simp only [Catalog.register, Ledger.register, hd, hroot]
      exact ⟨trivial, h.unregister root⟩
    | none =>
      simp only [Catalog.register, Ledger.register, hd, hroot]
      exact ⟨trivial, h⟩

/-- One operation, done to both. -/
theorem step (h : Represents c l) (op : Op) :
    (c.step op).2 = (l.step op).2 ∧ Represents (c.step op).1 (l.step op).1 := by
  cases op with
  | register d =>
    obtain ⟨hreply, hnext⟩ := h.register d
    exact ⟨congrArg Reply.outcome hreply, hnext⟩
  | install m =>
    obtain ⟨hreply, hnext⟩ := h.install m
    exact ⟨congrArg Reply.outcome hreply, hnext⟩
  | unregister root =>
    have hflag : (c.unregister root).2 = l.map.contains root := by
      rw [unregister_snd h.consistent, contains, h.visible_eq]
    exact ⟨congrArg Reply.flag hflag, h.unregister root⟩
  | clear order =>
    have hperm := order.perm c.slots.values
    have hcount : (c.clear order).2 = l.map.size := by
      rw [clear, clearIn_snd h.consistent hperm, size, h.visible_eq]
    exact ⟨congrArg Reply.count hcount, consistent_clearIn h.consistent hperm,
      visible_clearIn h.consistent hperm, (isSealed_clearIn c _).trans h.sealed_eq⟩
  | close => exact ⟨rfl, consistent_close h.consistent, h.visible_eq, rfl⟩
  | reopen => exact ⟨rfl, consistent_reopen h.consistent, h.visible_eq, rfl⟩

end Represents

theorem represents_empty : Represents empty .empty := ⟨consistent_empty, rfl, rfl⟩

/-- After any history a catalog has answered every operation as the ledger has, and it answers
every question as the ledger does. Each mapping stands at its own root and is listed in the order of
roots; the board shows exactly the listed mappings, under one handle each, and nothing was ever
taken down that was not up. -/
theorem history_refines_ledger (ops : List Op) :
    let (c, replies) := play step empty ops
    let (l, expected) := play Ledger.step .empty ops
    replies = expected ∧
    (∀ root, c.lookup root = l.map.get? root ∧ c.contains root = l.map.contains root) ∧
    c.mappings = l.map.values ∧ c.size = l.map.size ∧ (c.isEmpty = true ↔ l.map = .empty) ∧
    c.isSealed = l.isSealed ∧
    (∀ root m, c.lookup root = some m → m.root = root) ∧
    (∀ root e, c.slots.get? root = some e → e.mapping.root = root) ∧
    c.mappings.Pairwise (·.root < ·.root) ∧
    c.board.shown = c.mappings ∧ (c.board.up.map (·.1)).Nodup ∧ c.board.strays = 0 := by
  obtain ⟨hreplies, hc⟩ := play_simulation (R := Represents) (fun _ _ op h => h.step op)
    represents_empty ops
  have hagree := hc.consistent
  refine ⟨hreplies, ?_, ?_, ?_, ?_, hc.sealed_eq, ?_, ?_, ?_, ?_, ?_, ?_⟩
  · intro root
    rw [lookup, contains, hc.visible_eq]
    exact ⟨rfl, rfl⟩
  · rw [mappings, hc.visible_eq]
  · rw [size, hc.visible_eq]
  · rw [isEmpty, hc.visible_eq, List.isEmpty_iff]
    exact Table.entries_eq_nil_iff
  · exact fun root m => hagree.visible_root_eq
  · exact fun root e => hagree.root_eq
  · exact hagree.values_sorted
  · exact hagree.shown_eq
  · exact hagree.up_nodup
  · exact hagree.no_strays

end Catalog

end Graft
