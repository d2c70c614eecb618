import Graft.Path.Normal
import Graft.Settings.Toml

/-!
# Settings

The settings say whether the engine runs, which parts of the repository it watches and by which
queries it finds declarations. The paths to watch are given under one key and, in older files, under
a misspelled one that is still honoured; setting that key at all is worth a warning.
-/

namespace Graft

structure Settings where
  enabled : Bool
  /-- The paths to watch, as written. -/
  observed : List String
  /-- The paths under the misspelled key, if it is set. -/
  legacy : Option (List String)
  /-- The queries by which declarations are found, as written. -/
  queries : List String
deriving DecidableEq

namespace Settings

inductive Key where
  | enabled
  | observed
  | legacy
  | queries
deriving DecidableEq

def Key.name : Key → String
  | enabled => "enabled"
  | observed => "observation-paths"
  | legacy => "obervation-paths"
  | queries => "find-all-queries"

/-- What holds where nothing is set. -/
def standard : Settings where
  enabled := false
  observed := ["/content"]
  legacy := none
  queries := ["marker|superimpose /content"]

def enabledFor (observed : List String) : Settings := { standard with enabled := true, observed }

/-! ## Reading -/

def set? (s : Settings) : String × Toml.Value → Option Settings
  | (key, .flag b) => if key = Key.enabled.name then some { s with enabled := b } else none
  | (key, .texts l) =>
    if key = Key.observed.name then some { s with observed := l }
    else if key = Key.legacy.name then some { s with legacy := some l }
    else if key = Key.queries.name then some { s with queries := l }
    else none

/-- The settings that a document holds. Keys that it does not set are as in `standard`. -/
def ofToml? (text : String) : Option Settings :=
  (Toml.read text).bind (List.foldlM set? standard)

inductive FileError where
  /-- The file cannot be read as text. -/
  | unreadable
  /-- The text is no settings document. -/
  | malformed
deriving DecidableEq

def ofFile (bytes : Option ByteArray) : Except FileError Settings :=
  match bytes.bind String.fromUTF8? with
  | none => .error .unreadable
  | some text =>
    match ofToml? text with
    | none => .error .malformed
    | some s => .ok s

/-! ## What to watch -/

/-- An entry that is no absolute path, as written, and the key it stands under. -/
structure EntryError where
  key : Key
  text : String
deriving DecidableEq

def EntryError.message (e : EntryError) : String := s!"invalid {e.key.name} entry: '{e.text}'"

def entries (s : Settings) : List (Key × String) :=
  s.observed.map (Key.observed, ·) ++ (s.legacy.getD []).map (Key.legacy, ·)

def entryPath (e : Key × String) : Except EntryError Path :=
  match (Path.ofString e.2).normalize? with
  | some p => .ok p
  | none => .error ⟨e.1, e.2⟩

/-- The paths to watch: every entry's path once, at its first place. -/
def watched (s : Settings) : Except EntryError (List Path) :=
  (s.entries.mapM entryPath).map List.eraseDups

/-- Something in the settings that works but should be changed. -/
inductive Warning where
  | deprecatedKey (used replacement : Key)
deriving DecidableEq

def Warning.message : Warning → String
  | deprecatedKey used replacement =>
    s!"using deprecated configuration key '{used.name}', please switch to '{replacement.name}'"

def warnings (s : Settings) : List Warning :=
  if s.legacy.isSome then [.deprecatedKey .legacy .observed] else []

end Settings

end Graft
