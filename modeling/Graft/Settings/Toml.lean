/-!
# Flat TOML documents

Settings are written in TOML. Of that language they need the flat part: lines `key = value` whose
values are flags and lists of texts, with comments, bare and quoted keys, and the four kinds of
strings. `Toml.read` reads exactly these documents. It has no answer for a text that is not TOML, for
a key that is given twice, and for a document that uses more of the language, since no settings are
written so.

A reader takes what it wants from the front of the text and gives the rest back.
-/

namespace Graft.Toml

inductive Value where
  | flag (b : Bool)
  | texts (l : List String)
deriving DecidableEq

/-! ## Blanks, line ends and comments -/

def isSpace (c : Char) : Bool := c == ' ' || c == '\t'

/-- What may stand inside a comment or between quotes on one line. -/
def isPrintable (c : Char) : Bool := c == '\t' || (0x20 ≤ c.toNat && c.toNat ≠ 0x7F)

/-- The text after a line end, if the text begins with one. -/
def newline? : List Char → Option (List Char)
  | '\n' :: rest => some rest
  | '\r' :: '\n' :: rest => some rest
  | _ => none

/-- The text from the end of a comment on, if the text begins with `#`; else the same text. -/
def skipComment : List Char → List Char
  | '#' :: rest => rest.dropWhile isPrintable
  | cs => cs

/-- The text after the blanks and a comment and the line's end. At the end of the text the line
ends as well. -/
def endOfLine? (cs : List Char) : Option (List Char) :=
  match skipComment (cs.dropWhile isSpace) with
  | [] => some []
  | rest => newline? rest

/-- Skips blanks, comments and line ends, at most `fuel` lines of them. -/
def skipLines : Nat → List Char → List Char
  | 0, cs => cs
  | fuel + 1, cs =>
    let rest := skipComment (cs.dropWhile isSpace)
    match newline? rest with
    | some next => skipLines fuel next
    | none => rest

def skipBlank (cs : List Char) : List Char := skipLines (cs.length + 1) cs

/-! ## Strings -/

def hexNumber? (digits : List Char) : Option Nat :=
  digits.foldlM (fun n c =>
    if '0' ≤ c ∧ c ≤ '9' then some (16 * n + (c.toNat - 0x30))
    else if 'a' ≤ c ∧ c ≤ 'f' then some (16 * n + (c.toNat - 0x61 + 10))
    else if 'A' ≤ c ∧ c ≤ 'F' then some (16 * n + (c.toNat - 0x41 + 10))
    else none) 0

/-- The character with the number that hexadecimal digits spell; surrogates are no characters. -/
def hexChar? (digits : List Char) : Option Char :=
  (hexNumber? digits).bind fun n => if n.isValidChar then some (.ofNat n) else none

def simpleEscape? : Char → Option Char
  | 'b' => some '\x08'
  | 't' => some '\t'
  | 'n' => some '\n'
  | 'f' => some '\x0c'
  | 'r' => some '\r'
  | 'e' => some '\x1b'
  | '"' => some '"'
  | '\\' => some '\\'
  | _ => none

def consText (c : Char) (tail : Option (List Char × List Char)) : Option (List Char × List Char) :=
  tail.map fun (text, rest) => (c :: text, rest)

def consText? (c : Option Char) (tail : Option (List Char × List Char)) :
    Option (List Char × List Char) :=
  c.bind (consText · tail)

/-- The string up to a closing `"` on the same line. -/
def basic : List Char → Option (List Char × List Char)
  | '"' :: rest => some ([], rest)
  | '\\' :: 'u' :: a :: b :: c :: d :: rest => consText? (hexChar? [a, b, c, d]) (basic rest)
  | '\\' :: 'U' :: a :: b :: c :: d :: e :: f :: g :: h :: rest =>
    consText? (hexChar? [a, b, c, d, e, f, g, h]) (basic rest)
  | '\\' :: 'x' :: a :: b :: rest => consText? (hexChar? [a, b]) (basic rest)
  | '\\' :: c :: rest => consText? (simpleEscape? c) (basic rest)
  | c :: rest => if isPrintable c then consText c (basic rest) else none
  | [] => none

/-- The string up to a closing `'` on the same line. -/
def literal : List Char → Option (List Char × List Char)
  | '\'' :: rest => some ([], rest)
  | c :: rest => if isPrintable c then consText c (literal rest) else none
  | [] => none

def lineIsBlank (cs : List Char) : Bool := (newline? (cs.dropWhile isSpace)).isSome

/-- The string up to a closing `"""`. Before it up to two more quotes belong to the string. A
backslash at the end of a line takes away all blanks and line ends up to the next character; they
are skipped while `folding`. -/
def basicLines (folding : Bool) : List Char → Option (List Char × List Char)
  | '"' :: '"' :: '"' :: '"' :: '"' :: rest => some (['"', '"'], rest)
  | '"' :: '"' :: '"' :: '"' :: rest => some (['"'], rest)
  | '"' :: '"' :: '"' :: rest => some ([], rest)
  | '\\' :: 'u' :: a :: b :: c :: d :: rest =>
    consText? (hexChar? [a, b, c, d]) (basicLines false rest)
  | '\\' :: 'U' :: a :: b :: c :: d :: e :: f :: g :: h :: rest =>
    consText? (hexChar? [a, b, c, d, e, f, g, h]) (basicLines false rest)
  | '\\' :: 'x' :: a :: b :: rest => consText? (hexChar? [a, b]) (basicLines false rest)
  | '\\' :: c :: rest =>
    if lineIsBlank (c :: rest) then basicLines true (c :: rest)
    else consText? (simpleEscape? c) (basicLines false rest)
  | '\r' :: '\n' :: rest =>
    if folding then basicLines true rest
    else consText '\r' (consText '\n' (basicLines false rest))
  | c :: rest =>
    if folding && (isSpace c || c == '\n') then basicLines true rest
    else if isPrintable c || c == '\n' then consText c (basicLines false rest)
    else none
  | [] => none

/-- The string up to a closing `'''`. Before it up to two more quotes belong to the string. -/
def literalLines : List Char → Option (List Char × List Char)
  | '\'' :: '\'' :: '\'' :: '\'' :: '\'' :: rest => some (['\'', '\''], rest)
  | '\'' :: '\'' :: '\'' :: '\'' :: rest => some (['\''], rest)
  | '\'' :: '\'' :: '\'' :: rest => some ([], rest)
  | '\r' :: '\n' :: rest => consText '\r' (consText '\n' (literalLines rest))
  | c :: rest =>
    if isPrintable c || c == '\n' then consText c (literalLines rest) else none
  | [] => none

def withoutFirstNewline (cs : List Char) : List Char := (newline? cs).getD cs

def text? : List Char → Option (List Char × List Char)
  | '"' :: '"' :: '"' :: rest => basicLines false (withoutFirstNewline rest)
  | '"' :: rest => basic rest
  | '\'' :: '\'' :: '\'' :: rest => literalLines (withoutFirstNewline rest)
  | '\'' :: rest => literal rest
  | _ => none

/-! ## Values, keys and lines -/

/-- The texts of a list after its opening bracket, at most `fuel` of them. -/
def textList : Nat → List Char → Option (List String × List Char)
  | 0, _ => none
  | fuel + 1, cs =>
    match skipBlank cs with
    | ']' :: rest => some ([], rest)
    | start =>
      (text? start).bind fun (text, rest) =>
        match skipBlank rest with
        | ',' :: rest =>
          (textList fuel rest).map fun (l, rest) => (String.ofList text :: l, rest)
        | ']' :: rest => some ([String.ofList text], rest)
        | _ => none

def value? : List Char → Option (Value × List Char)
  | 't' :: 'r' :: 'u' :: 'e' :: rest => some (.flag true, rest)
  | 'f' :: 'a' :: 'l' :: 's' :: 'e' :: rest => some (.flag false, rest)
  | '[' :: rest => (textList (rest.length + 1) rest).map fun (l, rest) => (.texts l, rest)
  | _ => none

def isKeyChar (c : Char) : Bool := c.isAlphanum || c == '_' || c == '-'

/-- A key, bare or quoted on one line. -/
def key? : List Char → Option (List Char × List Char)
  | '"' :: rest => basic rest
  | '\'' :: rest => literal rest
  | cs =>
    match cs.span isKeyChar with
    | ([], _) => none
    | (key, rest) => some (key, rest)

/-- One line that gives a value to a key, with the line's end. -/
def line? (cs : List Char) : Option ((String × Value) × List Char) := do
  let (key, rest) ← key? cs
  match rest.dropWhile isSpace with
  | '=' :: rest =>
    let (value, rest) ← value? (rest.dropWhile isSpace)
    let rest ← endOfLine? rest
    return ((String.ofList key, value), rest)
  | _ => none

/-- The lines of a document, at most `fuel` of them. -/
def lines : Nat → List Char → Option (List (String × Value))
  | 0, _ => none
  | fuel + 1, cs =>
    match skipBlank cs with
    | [] => some []
    | start =>
      (line? start).bind fun (entry, rest) => (lines fuel rest).map (entry :: ·)

/-- A text without a byte order mark at its start. -/
def withoutMark : List Char → List Char
  | '\uFEFF' :: rest => rest
  | cs => cs

/-- The keys and values of a flat document, each key once. -/
def read (text : String) : Option (List (String × Value)) :=
  let cs := withoutMark text.toList
  (lines (cs.length + 1) cs).bind fun entries =>
    if (entries.map (·.1)).Nodup then some entries else none

end Graft.Toml
