import Gherkin.Document
import Gherkin.FileSystem

/-!
Features are kept in files as documents. What is wrong with such a file, or with the tables and
files that a feature refers to, is told by a `SourceError`.
-/

namespace Gherkin

inductive SourceError where
  | unreadable (path : Path)
  | malformed (path : Path)
  | unsupportedImport (path : Path)
  | missingImport (path : Path)
  | recursiveImport (importer imported : Path)
  | unsupportedTable (path : Path)
  | missingTable (path : Path)
  | malformedTable (path : Path)
  | examplesOnScenario (scenario : String)
  | rowWidth (table : String) (line expected found : Nat)
deriving DecidableEq, Repr

def SourceError.message : SourceError → String
  | unreadable path => "failed to read " ++ path
  | malformed path => "failed to parse " ++ path
  | unsupportedImport path => "unsupported import " ++ path ++ ": only .meta files can be imported"
  | missingImport path => "imported meta file not found: " ++ path
  | recursiveImport importer imported => "recursive import: " ++ importer ++ " imports " ++ imported
  | unsupportedTable path =>
    "unsupported examples source " ++ path ++ ": only .csv files are supported"
  | missingTable path => "data file not found: " ++ path
  | malformedTable path => "failed to read CSV file " ++ path
  | examplesOnScenario scenario =>
    "scenario '" ++ scenario ++ "' uses @Examples but is not a scenario outline"
  | rowWidth table line expected found =>
    "examples '" ++ table ++ "' line " ++ toString line ++ ": expected " ++ toString expected ++
      " cells, found " ++ toString found

namespace Feature

/-- Reads a feature from the text of a document, as the content of the given file. -/
def parse (text : String) (path : Path) (reader : DocumentReader := Yaml.parse?) :
    Except SourceError Feature :=
  match reader text with
  | some (some doc) =>
    (ofYaml? doc).elim (.error (.malformed path)) fun f => .ok { f with file := some path }
  | _ => .error (.malformed path)

def load (files : FileSystem) (path : Path) : Except SourceError Feature :=
  match files.readText? path with
  | none => .error (.unreadable path)
  | some text => parse text path files.reader

end Feature

end Gherkin
