import Graft.Table.Basic
import Graft.Text.Blank

/-!
# Property values

What a node's property can hold, and how each value reads as a text and as a flag.
-/

namespace Graft

inductive Value where
  | text (s : String)
  | flag (b : Bool)
  | number (n : Int64)
  | texts (l : List String)
deriving DecidableEq

namespace Value

/-- The text of a single value. A list of texts has none. -/
def asText? : Value → Option String
  | text s => some s
  | flag b => some (if b then "true" else "false")
  | number n => some (toString n.toInt)
  | texts _ => none

/-- Whether a text says yes: `true` in any mix of ASCII cases, blanks around it ignored. -/
def saysTrue (s : String) : Bool := (Text.trim s.toList).map Char.toLower == ['t', 'r', 'u', 'e']

/-- The flag that a value stands for. Numbers and lists stand for none. -/
def asFlag? : Value → Option Bool
  | flag b => some b
  | text s => some (saysTrue s)
  | number _ => none
  | texts _ => none

end Value

abbrev Properties := Table String Value

end Graft
