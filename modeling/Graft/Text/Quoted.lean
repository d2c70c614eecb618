import Graft.Text.Invisible

/-!
# Quoted text

A text between double quotes, for people who look for invisible differences. Quotes and backslashes
get a backslash. Line ends, tabs and NUL are written as letters after one, other invisible
characters by their numbers.
-/

namespace Graft.Text

/-- How one character is written between quotes. -/
def quoteChar (c : Char) : List Char :=
  match c with
  | '"' => ['\\', '"']
  | '\\' => ['\\', '\\']
  | '\n' => ['\\', 'n']
  | '\r' => ['\\', 'r']
  | '\t' => ['\\', 't']
  | '\x00' => ['\\', '0']
  | c => if isInvisible c then ['\\', 'u', '\x7b'] ++ Nat.toDigits 16 c.toNat ++ ['\x7d'] else [c]

def quoted (s : String) : String :=
  String.ofList ('"' :: s.toList.flatMap quoteChar ++ ['"'])

end Graft.Text
