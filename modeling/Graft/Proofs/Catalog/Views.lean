import Graft.Catalog
import Mathlib.Data.List.Nodup

/-!
# The views of a catalog agree

A catalog says three times what is active: in its slots, in what readers see and on its board.
`Agree` is the invariant that the three say the same, `consistent_*` that every operation keeps it,
and `visible_*` what each operation does to the view that readers have.

Every operation is made of two moves, a withdrawal and a publication. `Stable` collects what an
invariant of the two moves is, and each operation is treated once for all such invariants. The
slots are a parameter there, because clearing empties them first and only then brings the other two
views in step, one entry after the other.
-/

namespace Graft.Catalog

/-- Readers see in `v`, and the board `b` shows, exactly what the slots `s` hold. -/
structure Agree (s : Table Path Entry) (v : Table Path Mapping) (b : Board) : Prop where
  visible_eq : ∀ root, v.get? root = (s.get? root).map (·.mapping)
  root_eq : ∀ {root e}, s.get? root = some e → e.mapping.root = root
  mem_up_iff : ∀ h m, (h, m) ∈ b.up ↔ s.get? m.root = some ⟨m, h⟩
  up_nodup : (b.up.map (·.1)).Nodup
  lt_next : ∀ e ∈ b.up, e.1 < b.next
  no_strays : b.strays = 0

def Consistent (c : Catalog) : Prop := Agree c.slots c.visible c.board

theorem consistent_empty : empty.Consistent where
  visible_eq _ := rfl
  root_eq h := by simp [empty] at h
  mem_up_iff h m := by simp [empty, Board.empty]
  up_nodup := List.nodup_nil
  lt_next e he := by simp [empty, Board.empty] at he
  no_strays := rfl

/-! ## One publication more or less -/

namespace Agree

variable {s : Table Path Entry} {v : Table Path Mapping} {b : Board}

/-- What is up is found by its handle. -/
theorem lookup_up (h : Agree s v b) {root : Path} {e : Entry} (he : s.get? root = some e) :
    b.up.lookup e.handle = some e.mapping := by
  have hroot := h.root_eq he
  subst hroot
  exact Table.lookup_of_mem h.up_nodup ((h.mem_up_iff e.handle e.mapping).2 he)

/-- A withdrawal of what a slot holds is never a stray one. -/
theorem board_withdraw (h : Agree s v b) {root : Path} {e : Entry} (he : s.get? root = some e) :
    b.withdraw e.handle =
      { b with
        calls := b.calls ++ [.withdraw root e.handle]
        up := b.up.filter (·.1 ≠ e.handle) } := by
  rw [Board.withdraw, h.lookup_up he, ← h.root_eq he]

theorem withdraw (h : Agree s v b) {root : Path} {e : Entry} (he : s.get? root = some e) :
    Agree (s.erase root) (v.erase root) (b.withdraw e.handle) := by
  have hroot := h.root_eq he
  rw [h.board_withdraw he]
  refine ⟨?_, ?_, ?_, ?_, ?_, h.no_strays⟩
  · intro p
    rw [Table.get?_erase, Table.get?_erase, h.visible_eq]
    split <;> rfl
  · intro p x hx
    rw [Table.get?_erase] at hx
    split at hx
    · cases hx
    · exact h.root_eq hx
  · intro k m
    have hup := (h.mem_up_iff k m)
    rw [List.mem_filter, hup, Table.get?_erase, decide_eq_true_eq]
    constructor
    · rintro ⟨hm, hk⟩
      have hne : m.root ≠ root := by
        intro hmr
        rw [hmr, he] at hm
        exact hk (by rw [Option.some.inj hm])
      rw [if_neg hne]
      exact hm
    · intro hm
      split at hm
      · cases hm
      · next hne =>
        refine ⟨hm, ?_⟩
        -- a handle is up for one mapping only, and that stands at `root`
        rintro rfl
        have hother : b.up.lookup e.handle = some m := h.lookup_up (e := ⟨m, e.handle⟩) hm
        rw [h.lookup_up he] at hother
        exact hne (by rw [← hroot, Option.some.inj hother])
  · exact h.up_nodup.sublist (List.filter_sublist.map _)
  · intro x hx
    exact h.lt_next x (List.mem_of_mem_filter hx)

theorem publish (h : Agree s v b) {m : Mapping} (hfree : s.get? m.root = none) :
    Agree (s.insert m.root ⟨m, b.next⟩) (v.insert m.root m) (b.publish m).1 := by
  refine ⟨?_, ?_, ?_, ?_, ?_, h.no_strays⟩
  · intro p
    rw [Table.get?_insert, Table.get?_insert, h.visible_eq]
    split <;> rfl
  · intro p x hx
    rw [Table.get?_insert] at hx
    split at hx
    · next hp =>
      obtain rfl := Option.some.inj hx
      exact hp.symm
    · exact h.root_eq hx
  · intro k m'
    have hup := h.mem_up_iff k m'
    simp only [Board.publish, List.mem_append, List.mem_singleton, Prod.mk.injEq]
    rw [hup, Table.get?_insert]
    constructor
    · rintro (hold | ⟨rfl, rfl⟩)
      · have hne : m'.root ≠ m.root := by
          intro heq
          rw [heq, hfree] at hold
          cases hold
        rw [if_neg hne]
        exact hold
      · rw [if_pos rfl]
    · intro hnew
      split at hnew
      · injection Option.some.inj hnew with hm hk
        exact Or.inr ⟨hk.symm, hm.symm⟩
      · exact Or.inl hnew
  · have hfresh : b.next ∉ b.up.map (·.1) := by
      intro hmem
      obtain ⟨x, hx, hxn⟩ := List.mem_map.1 hmem
      exact absurd (h.lt_next x hx) (by omega)
    simp only [Board.publish, List.map_append, List.map_cons, List.map_nil]
    exact List.nodup_append.2 ⟨h.up_nodup, List.nodup_singleton _, by
      rintro k hk k' hk' rfl
      exact hfresh (List.mem_singleton.1 hk' ▸ hk)⟩
  · intro x hx
    simp only [Board.publish, List.mem_append, List.mem_singleton] at hx ⊢
    rcases hx with hx | rfl
    · exact Nat.lt_succ_of_lt (h.lt_next x hx)
    · exact Nat.lt_succ_self _

/-- The entries in the slots stand at different roots, so none stands there twice. -/
theorem values_nodup (h : Agree s v b) : s.values.Nodup := by
  rw [Table.values, List.Nodup, List.pairwise_map]
  refine s.sorted.imp_of_mem fun {x y} hx hy hlt heq => ?_
  have hxr := h.root_eq (Table.get?_eq_some_iff.2 hx)
  have hyr := h.root_eq (Table.get?_eq_some_iff.2 hy)
  rw [← hxr, ← hyr, heq] at hlt
  exact absurd hlt (Std.lt_irrefl)

theorem mem_values_iff (h : Agree s v b) {e : Entry} :
    e ∈ s.values ↔ s.get? e.mapping.root = some e := by
  rw [Table.mem_values_iff]
  constructor
  · rintro ⟨root, hroot⟩
    rw [h.root_eq hroot]
    exact hroot
  · exact fun he => ⟨_, he⟩

theorem visible_root_eq (h : Agree s v b) {root : Path} {m : Mapping}
    (hm : v.get? root = some m) : m.root = root := by
  rw [h.visible_eq, Option.map_eq_some_iff] at hm
  obtain ⟨e, he, rfl⟩ := hm
  exact h.root_eq he

/-- Readers see the mappings in strictly increasing order of their own roots. -/
theorem values_sorted (h : Agree s v b) : v.values.Pairwise (·.root < ·.root) := by
  rw [Table.values, List.pairwise_map]
  refine v.sorted.imp_of_mem fun {x y} hx hy hlt => ?_
  rw [h.visible_root_eq (Table.get?_eq_some_iff.2 hx),
    h.visible_root_eq (Table.get?_eq_some_iff.2 hy)]
  exact hlt

theorem mem_visible_iff (h : Agree s v b) {m : Mapping} :
    m ∈ v.values ↔ ∃ k, (k, m) ∈ b.up := by
  rw [Table.mem_values_iff]
  constructor
  · rintro ⟨root, hm⟩
    have hroot := h.visible_root_eq hm
    subst hroot
    rw [h.visible_eq, Option.map_eq_some_iff] at hm
    obtain ⟨⟨m', k⟩, he, rfl⟩ := hm
    exact ⟨k, (h.mem_up_iff k m').2 he⟩
  · rintro ⟨k, hk⟩
    refine ⟨m.root, ?_⟩
    rw [h.visible_eq, (h.mem_up_iff k m).1 hk]
    rfl

/-- The board shows what readers see, each mapping under one handle and in the readers' order. -/
theorem shown_eq (h : Agree s v b) : b.shown = v.values := by
  have hsorted := h.values_sorted
  have hup : (b.up.map (·.2)).Nodup := by
    refine (List.Nodup.of_map _ h.up_nodup).map_on fun x hx y hy heq => ?_
    have hx' := (h.mem_up_iff x.1 x.2).1 hx
    have hy' := (h.mem_up_iff y.1 y.2).1 hy
    rw [← heq, hx'] at hy'
    injection Option.some.inj hy' with _ hk
    exact Prod.ext hk heq
  have hvalues : v.values.Nodup := hsorted.imp fun hlt heq => by
    rw [heq] at hlt
    exact absurd hlt Std.lt_irrefl
  have hperm : (b.up.map (·.2)).Perm v.values :=
    (List.perm_ext_iff_of_nodup hup hvalues).2 fun m => by
      rw [h.mem_visible_iff, List.mem_map]
      constructor
      · rintro ⟨⟨k, m'⟩, hk, rfl⟩
        exact ⟨k, hk⟩
      · rintro ⟨k, hk⟩
        exact ⟨(k, m), hk, rfl⟩
  have hshown : b.shown.Pairwise (Mapping.comesBefore · ·) := by
    refine List.pairwise_mergeSort ?_ Mapping.comesBefore_total _
    exact fun _ _ _ => Mapping.comesBefore_trans
  have hlisted : v.values.Pairwise (Mapping.comesBefore · ·) :=
    hsorted.imp fun hlt => Mapping.comesBefore_iff.2 (Or.inl hlt)
  exact List.Perm.eq_of_pairwise (fun _ _ _ _ => Mapping.comesBefore_antisymm) hshown hlisted
    ((List.mergeSort_perm _ _).trans hperm)

end Agree

/-! ## Invariants of the two moves -/

/-- A relation between the three views that implies their agreement and is kept by a withdrawal and
by a publication at a free root. -/
structure Stable (I : Table Path Entry → Table Path Mapping → Board → Prop) : Prop where
  agree : ∀ {s v b}, I s v b → Agree s v b
  withdraw : ∀ {s v b root e}, I s v b → s.get? root = some e →
    I (s.erase root) (v.erase root) (b.withdraw e.handle)
  publish : ∀ {s v b m}, I s v b → s.get? m.root = none →
    I (s.insert m.root ⟨m, b.next⟩) (v.insert m.root m) (b.publish m).1

theorem agree_stable : Stable Agree where
  agree h := h
  withdraw h he := h.withdraw he
  publish h hfree := h.publish hfree

namespace Stable

variable {I : Table Path Entry → Table Path Mapping → Board → Prop} {c : Catalog}

theorem keeps_unregister (hI : Stable I) (h : I c.slots c.visible c.board) (root : Path) :
    I (c.unregister root).1.slots (c.unregister root).1.visible (c.unregister root).1.board := by
  unfold unregister
  split
  · next e he =>
    have hroot := (hI.agree h).root_eq he
    have hleft := hI.withdraw h he
    subst hroot
    exact hleft
  · exact h

/-- A publication fills its slot over an entry that has been withdrawn. -/
theorem keeps_activate (hI : Stable I) {s : Table Path Entry} {m : Mapping}
    (h : I s c.visible c.board) (hfree : s.get? m.root = none)
    (hslots : s.insert m.root ⟨m, c.board.next⟩ = c.slots.insert m.root ⟨m, c.board.next⟩) :
    I (c.activate m).slots (c.activate m).visible (c.activate m).board := by
  have hnew := hI.publish h hfree
  rw [hslots] at hnew
  exact hnew

theorem keeps_install (hI : Stable I) (h : I c.slots c.visible c.board) (m : Mapping) :
    I (c.install m).1.slots (c.install m).1.visible (c.install m).1.board := by
  unfold install
  split
  · exact h
  split
  · next hfree => exact hI.keeps_activate h hfree rfl
  next e he =>
  split
  · exact h
  · have hroot := (hI.agree h).root_eq he
    have hleft := hI.withdraw h he
    rw [← hroot] at hleft
    refine hI.keeps_activate (c := c.withdraw e) hleft ?_ ?_
    · rw [← hroot, Table.get?_erase_self]
    · refine Table.ext_get? fun p => ?_
      rw [Table.get?_insert, Table.get?_insert, hroot, Table.get?_erase]
      split
      · rfl
      · rfl

theorem keeps_register (hI : Stable I) (h : I c.slots c.visible c.board) (d : Declaration) :
    I (c.register d).1.slots (c.register d).1.visible (c.register d).1.board := by
  unfold register
  split
  · exact hI.keeps_install h _
  · dsimp only
    split
    · exact hI.keeps_unregister h _
    · exact h

/-- What is left of the slots when some entries have been withdrawn is what has not been withdrawn
yet, whatever the order; in the end nothing is left. -/
theorem keeps_foldl_withdraw (hI : Stable I) {s : Table Path Entry} {order : List Entry}
    (h : I s c.visible c.board) (hnodup : order.Nodup)
    (hmem : ∀ e, e ∈ order ↔ s.get? e.mapping.root = some e) :
    I .empty (order.foldl Catalog.withdraw c).visible (order.foldl Catalog.withdraw c).board := by
  induction order generalizing s c with
  | nil =>
    have hs : s = .empty := by
      refine Table.ext_get? fun root => ?_
      cases he : s.get? root with
      | none => rfl
      | some e =>
        rw [← (hI.agree h).root_eq he] at he
        exact absurd ((hmem e).2 he) List.not_mem_nil
    rw [hs] at h
    exact h
  | cons e order ih =>
    have he : s.get? e.mapping.root = some e := (hmem e).1 List.mem_cons_self
    -- `s` shrinks with the order: it has lost `e` when the rest is withdrawn
    rw [List.nodup_cons] at hnodup
    refine ih (c := c.withdraw e) (hI.withdraw h he) hnodup.2 fun x => ?_
    rw [Table.get?_erase]
    constructor
    · intro hx
      have hxs := (hmem x).1 (List.mem_cons_of_mem e hx)
      have hne : x.mapping.root ≠ e.mapping.root := by
        intro heq
        rw [heq, he] at hxs
        exact hnodup.1 (Option.some.inj hxs ▸ hx)
      rw [if_neg hne]
      exact hxs
    · intro hx
      split at hx
      · cases hx
      · next hne =>
        rcases List.mem_cons.1 ((hmem x).2 hx) with rfl | hx
        · exact absurd rfl hne
        · exact hx

theorem slots_foldl_withdraw (c : Catalog) (order : List Entry) :
    (order.foldl Catalog.withdraw c).slots = c.slots := by
  induction order generalizing c with
  | nil => rfl
  | cons e order ih => exact ih (c.withdraw e)

theorem keeps_clearIn (hI : Stable I) (h : I c.slots c.visible c.board) {order : List Entry}
    (hperm : order.Perm c.slots.values) :
    I (c.clearIn order).1.slots (c.clearIn order).1.visible (c.clearIn order).1.board := by
  have hagree := hI.agree h
  have hend := hI.keeps_foldl_withdraw (c := { c with slots := .empty }) h
    (hperm.nodup_iff.2 hagree.values_nodup) fun e => by rw [hperm.mem_iff, hagree.mem_values_iff]
  rw [clearIn, slots_foldl_withdraw]
  exact hend

end Stable

/-! ## Every operation keeps the views in agreement -/

section Operations

variable {c : Catalog}

theorem mem_mappings_iff (h : c.Consistent) {m : Mapping} :
    m ∈ c.mappings ↔ c.lookup m.root = some m := by
  rw [mappings, Table.mem_values_iff]
  constructor
  · rintro ⟨root, hm⟩
    obtain rfl := h.visible_root_eq hm
    exact hm
  · exact fun hm => ⟨m.root, hm⟩

theorem consistent_close (h : c.Consistent) : c.close.Consistent := h

theorem consistent_reopen (h : c.Consistent) : c.reopen.Consistent := h

theorem consistent_unregister (h : c.Consistent) (root : Path) :
    (c.unregister root).1.Consistent :=
  agree_stable.keeps_unregister h root

theorem consistent_install (h : c.Consistent) (m : Mapping) : (c.install m).1.Consistent :=
  agree_stable.keeps_install h m

theorem consistent_register (h : c.Consistent) (d : Declaration) :
    (c.register d).1.Consistent :=
  agree_stable.keeps_register h d

/-- The slots can be cleared in any order. -/
theorem consistent_clearIn (h : c.Consistent) {order : List Entry}
    (hperm : order.Perm c.slots.values) : (c.clearIn order).1.Consistent :=
  agree_stable.keeps_clearIn h hperm

/-! ## What readers see after an operation -/

theorem visible_unregister (h : c.Consistent) (root : Path) :
    (c.unregister root).1.visible = c.visible.erase root := by
  unfold unregister
  split
  · next e he =>
    have hroot := h.root_eq he
    subst hroot
    rfl
  · next hfree =>
    refine Table.ext_get? fun p => ?_
    rw [Table.get?_erase]
    split
    · next hp =>
      subst hp
      rw [h.visible_eq, hfree]
      rfl
    · rfl

theorem lookup_unregister (h : c.Consistent) (root q : Path) :
    (c.unregister root).1.lookup q = if q = root then none else c.lookup q := by
  rw [lookup, visible_unregister h, Table.get?_erase]
  rfl

/-- The answer to an unregistration is whether readers saw a mapping there. -/
theorem unregister_snd (h : c.Consistent) (root : Path) :
    (c.unregister root).2 = c.contains root := by
  have hv := h.visible_eq root
  unfold unregister contains Table.contains
  split
  · next e he => rw [hv, he]; rfl
  · next hfree => rw [hv, hfree]; rfl

theorem unregister_of_free (h : c.Consistent) {root : Path} (hroot : c.lookup root = none) :
    c.unregister root = (c, false) := by
  rw [lookup, h.visible_eq] at hroot
  unfold unregister
  rw [Option.map_eq_none_iff.1 hroot]

/-- A mapping is skipped exactly when the catalog is sealed or readers see that mapping already. -/
theorem install_snd (h : c.Consistent) (m : Mapping) :
    (c.install m).2 =
      if c.isSealed ∨ c.lookup m.root = some m then .skipped else .applied := by
  have hv : c.lookup m.root = _ := h.visible_eq m.root
  unfold install
  rw [hv]
  split
  · next hsealed => simp [hsealed]
  · next hsealed =>
    split
    · next hfree => simp [hsealed, hfree]
    · next e he =>
      split
      · next heq => simp [he, heq]
      · next hne => simp [hsealed, he, hne]

theorem install_of_active (h : c.Consistent) {m : Mapping} (hm : c.lookup m.root = some m) :
    c.install m = (c, .skipped) := by
  rw [lookup, h.visible_eq] at hm
  obtain ⟨e, he, rfl⟩ := Option.map_eq_some_iff.1 hm
  unfold install
  split
  · rfl
  · simp only [he, if_true]

/-- An open catalog that has been asked to install a mapping shows it; for a mapping that it skips
this is no change. -/
theorem visible_install (h : c.Consistent) (m : Mapping) :
    (c.install m).1.visible = if c.isSealed then c.visible else c.visible.insert m.root m := by
  have hv := h.visible_eq m.root
  unfold install
  split
  · rfl
  split
  · rfl
  next e he =>
  split
  · next heq =>
    refine Table.ext_get? fun p => ?_
    rw [Table.get?_insert]
    split
    · next hp =>
      rw [hp, hv, he, ← heq]
      rfl
    · rfl
  · have hroot := h.root_eq he
    refine Table.ext_get? fun p => ?_
    simp only [activate, withdraw, Table.get?_insert, Table.get?_erase, hroot]
    split
    · rfl
    · rfl

/-- An installation is for the mapping's root alone, and in a sealed catalog for none. -/
theorem lookup_install (h : c.Consistent) (m : Mapping) (q : Path) : (c.install m).1.lookup q =
    if q = m.root then if c.isSealed then c.lookup q else some m else c.lookup q := by
  rw [lookup, visible_install h]
  split
  · exact (ite_self _).symm
  · rw [Table.get?_insert]
    rfl

theorem visible_clearIn (h : c.Consistent) {order : List Entry}
    (hperm : order.Perm c.slots.values) : (c.clearIn order).1.visible = .empty := by
  have hslots : (c.clearIn order).1.slots = .empty := Stable.slots_foldl_withdraw _ order
  refine Table.ext_get? fun p => ?_
  rw [(consistent_clearIn h hperm).visible_eq p, hslots]
  rfl

theorem clearIn_snd (h : c.Consistent) {order : List Entry} (hperm : order.Perm c.slots.values) :
    (c.clearIn order).2 = c.size := by
  have hsize : c.slots.size = c.visible.size := Table.size_eq_of_contains fun root => by
    rw [Table.contains, Table.contains, h.visible_eq, Option.isSome_map]
  rw [clearIn, hperm.length_eq, Table.values, List.length_map]
  exact hsize

@[simp] theorem isSealed_unregister (c : Catalog) (root : Path) :
    (c.unregister root).1.isSealed = c.isSealed := by
  unfold unregister
  split
  · rfl
  · rfl

@[simp] theorem isSealed_install (c : Catalog) (m : Mapping) :
    (c.install m).1.isSealed = c.isSealed := by
  unfold install
  split
  · rfl
  split
  · rfl
  split
  · rfl
  · rfl

@[simp] theorem isSealed_register (c : Catalog) (d : Declaration) :
    (c.register d).1.isSealed = c.isSealed := by
  unfold register
  split
  · exact isSealed_install c _
  · dsimp only
    split
    · exact isSealed_unregister c _
    · rfl

theorem isSealed_clearIn (c : Catalog) (order : List Entry) :
    (c.clearIn order).1.isSealed = c.isSealed := by
  have hfold : ∀ c : Catalog, (order.foldl withdraw c).isSealed = c.isSealed := by
    induction order with
    | nil => exact fun _ => rfl
    | cons e order ih => exact fun c => ih (c.withdraw e)
  exact hfold _

end Operations

end Graft.Catalog
