/-!
# Blank characters

The white space that trimming and word splitting go by: the characters with the Unicode property
White_Space. Zero-width characters (U+200B, U+FEFF), U+180E and the separators U+001C to U+001F
do not have it.

Text is handled as a list of characters here; callers convert at their own boundary.
-/

namespace Graft.Text

/-- The Unicode property White_Space. -/
def isBlank (c : Char) : Bool :=
  (0x09 ≤ c.toNat && c.toNat ≤ 0x0D) || c.toNat == 0x20 || c.toNat == 0x85 || c.toNat == 0xA0 ||
  c.toNat == 0x1680 || (0x2000 ≤ c.toNat && c.toNat ≤ 0x200A) || c.toNat == 0x2028 ||
  c.toNat == 0x2029 || c.toNat == 0x202F || c.toNat == 0x205F || c.toNat == 0x3000

def trim (cs : List Char) : List Char :=
  ((cs.dropWhile isBlank).reverse.dropWhile isBlank).reverse

def words (cs : List Char) : List (List Char) := (cs.splitOnP isBlank).filter (· ≠ [])

def trimmed (s : String) : String := String.ofList (trim s.toList)

end Graft.Text
