import Gherkin.FileSystem
import Gherkin.Json.Writer
import Gherkin.Pairs
import Gherkin.Yaml.Scalar

/-!
Settings are flat: a value deep in a document is named by the keys and positions that lead to it,
joined by dots. Of two values with one name the later one counts.
-/

namespace Gherkin

structure Settings where
  entries : Pairs := []
deriving DecidableEq, Repr

inductive SettingsError where
  | unreadable (path : Path)
  | malformed (path : Path)
  | notMapping (path : Path)
  | missing (name : String)
deriving DecidableEq, Repr

def SettingsError.message : SettingsError → String
  | unreadable path => "failed to read settings file " ++ path
  | malformed path => "failed to parse settings file " ++ path
  | notMapping path => "settings file " ++ path ++ " must contain a mapping at the top level"
  | missing name => "setting not found: " ++ name

namespace Settings

def empty : Settings := {}

def get? (s : Settings) (name : String) : Option String :=
  s.entries.get? name

def get (s : Settings) (name : String) : Except SettingsError String :=
  (s.get? name).elim (.error (.missing name)) .ok

def set (s : Settings) (name value : String) : Settings :=
  { entries := s.entries.put name value }

def size (s : Settings) : Nat :=
  s.entries.length

/-- Sets everything that `t` sets. -/
def merge (s t : Settings) : Settings :=
  { entries := s.entries.putAll t.entries }

/-- The text of a value that has no parts. -/
def leafText : Json → String
  | .str text => text
  | .null => ""
  | v => v.compact

mutual

/-- The names and texts of the leaves below a name, in document order. -/
def leaves (name : String) : Json → Pairs
  | .obj fields => fieldLeaves (name ++ ".") fields
  | .arr items => itemLeaves (name ++ ".") 0 items
  | v => [(name, leafText v)]

def fieldLeaves (start : String) : List (String × Json) → Pairs
  | [] => []
  | (key, v) :: fields => leaves (start ++ key) v ++ fieldLeaves start fields

def itemLeaves (start : String) (index : Nat) : List Json → Pairs
  | [] => []
  | v :: items => leaves (start ++ toString index) v ++ itemLeaves start (index + 1) items

end

/-- The settings of a document. Null sets nothing. -/
def ofJson? : Json → Option Settings
  | .obj fields => some { entries := Pairs.putAll [] (fieldLeaves "" fields) }
  | .null => some empty
  | _ => none

/-- Reads settings from a text; `name` stands for it in errors. A text without a document counts as
null. -/
def parse (name : Path) (text : String) (reader : DocumentReader := Yaml.parse?) :
    Except SettingsError Settings :=
  match reader text with
  | none => .error (.malformed name)
  | some doc => (ofJson? (doc.elim .null Yaml.toJson)).elim (.error (.notMapping name)) .ok

def load (files : FileSystem) (path : Path) : Except SettingsError Settings :=
  match files.readText? path with
  | none => .error (.unreadable path)
  | some text => parse path text files.reader

/-- Merges the settings of several files, the later ones over the earlier ones. -/
def loadAll (files : FileSystem) (paths : List Path) : Except SettingsError Settings :=
  paths.foldlM (fun s path => return s.merge (← load files path)) empty

end Settings

end Gherkin
