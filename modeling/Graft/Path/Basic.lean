/-!
# Content paths

A path is a text whose segments are separated by `/`. Every function here works on any text, also
on one that is not in normal form (`Graft.Path.Normal`), because look-ups are made with whatever
a caller asks for. Comparison is exact, and one path is below another only across a separator, so
`/a/bb` is not below `/a/b`.

Paths are ordered by code point. The order interleaves siblings: `/a-b` sorts between `/a` and
`/a/x`.
-/

namespace Graft

/-- A text read as a path. -/
structure Path where
  chars : List Char
deriving DecidableEq, Inhabited

namespace Path

def ofString (s : String) : Path := ⟨s.toList⟩

instance : ToString Path := ⟨fun p => String.ofList p.chars⟩

/-! ## Order -/

instance : LT Path := ⟨fun a b => a.chars < b.chars⟩

instance : LE Path := ⟨fun a b => ¬ b.chars < a.chars⟩

instance : DecidableLT Path := fun a b => inferInstanceAs (Decidable (a.chars < b.chars))

instance : DecidableLE Path := fun a b => inferInstanceAs (Decidable (¬ b.chars < a.chars))

theorem lt_def {a b : Path} : a < b ↔ a.chars < b.chars := Iff.rfl

instance : Std.IsLinearOrder Path where
  le_refl a := List.lt_irrefl a.chars
  le_trans _ _ _ h₁ h₂ := List.le_trans h₁ h₂
  le_antisymm a b h₁ h₂ := by
    have : a.chars = b.chars := List.le_antisymm h₁ h₂
    cases a
    cases b
    simp_all
  le_total a b := List.le_total a.chars b.chars

instance : Std.LawfulOrderLT Path where
  lt_iff _ _ := ⟨fun h => ⟨List.lt_asymm h, fun h' => h' h⟩, fun h => Classical.not_not.1 h.2⟩

/-! ## Up and down -/

def child (p : Path) (name : String) : Path := ⟨p.chars ++ '/' :: name.toList⟩

/-- What stands before each separator of a text, longest first. -/
def uppers : List Char → List (List Char)
  | [] => []
  | c :: cs => (uppers cs).map (c :: ·) ++ if c = '/' then [[]] else []

/-- The paths strictly above `p`, nearest first. The bare root has no path of its own. -/
def above (p : Path) : List Path := ((uppers p.chars).filter (· ≠ [])).map Path.mk

/-- The path up to the last separator; none at the top level. -/
def parent (p : Path) : Option Path := p.above.head?

def ancestors (p : Path) : List Path := p :: p.above

/-- What follows the last separator of a text, if there is one. -/
def afterLast? : List Char → Option (List Char)
  | [] => none
  | c :: cs =>
    match afterLast? cs with
    | some last => some last
    | none => if c = '/' then some cs else none

/-- The last segment of a path; the whole text if it has no separator. -/
def name (p : Path) : String := String.ofList ((afterLast? p.chars).getD p.chars)

def textAfter : List Char → List Char → Option (List Char)
  | [], cs => some cs
  | _ :: _, [] => none
  | a :: start, c :: cs => if a = c then textAfter start cs else none

/-- The part of `p` strictly below `a`, without the separator between them. -/
def below? (p a : Path) : Option String :=
  match textAfter a.chars p.chars with
  | some ('/' :: c :: rest) => some (String.ofList (c :: rest))
  | _ => none

def isBelow (p a : Path) : Bool := (p.below? a).isSome

def isWithin (p a : Path) : Bool := p == a || p.isBelow a

end Path

end Graft
