import Gherkin.Path
import Gherkin.Text.Blank
import Gherkin.Text.Unsigned

/-!
Tags annotate features and scenarios. A tag whose name is known must have the arguments that belong
to it; any other name is a tag of the user's own. `Tag.render` writes the one canonical form, which
`Tag.parse` reads back.
-/

namespace Gherkin

inductive Tag where
  /-- Load this meta file before the feature runs. -/
  | imports (path : Path)
  /-- Take the rows of an outline from this file. -/
  | examples (path : Path)
  /-- The scenario was made from one record of a data file, counted from 1. -/
  | data (file : Path) (record : UInt64)
  /-- The scenario defines a step. -/
  | stepDef
  /-- The step definition comes from this meta file. -/
  | definedIn (path : Path)
  /-- The scenario is skipped. -/
  | ignore
  | custom (name : String) (value : Option String)
deriving DecidableEq, Repr

namespace Tag

/-- What is wrong with the text of a tag. -/
inductive Fault where
  | unclosed
  | name
  | path
  | record
  | arguments
deriving DecidableEq, Repr

def Fault.message : Fault → String
  | unclosed => "missing closing parenthesis"
  | name => "tag name must be a single non-empty word"
  | path => "expected a single double-quoted path"
  | record => "expected file=\"..\", record=N"
  | arguments => "tag takes no arguments"

/-- A text that is no tag, without the blanks around it. -/
structure Malformed where
  text : String
  fault : Fault
deriving DecidableEq, Repr

def Malformed.message (e : Malformed) : String :=
  "malformed tag '" ++ e.text ++ "': " ++ e.fault.message

/-- The name and, where there are parentheses, the text between them. -/
def splitArguments (body : List Char) : Except Fault (List Char × Option (List Char)) :=
  match Text.splitFirst? ['('] body with
  | none => .ok (body, none)
  | some (name, rest) =>
    match Text.beforeEnd? [')'] rest with
    | none => .error .unclosed
    | some args => .ok (Text.trim name, some (Text.trim args))

/-- A path between two double quotes, not empty and without a quote inside. -/
def quotedPath? (args : Option (List Char)) : Option Path := do
  let opened ← Text.afterStart? ['"'] (← args)
  let inner ← Text.beforeEnd? ['"'] opened
  if inner.isEmpty || inner.contains '"' then none else some (String.ofList inner)

/-- The arguments `file="F", record=N`, with blanks allowed between the parts. -/
def fileAndRecord? (args : Option (List Char)) : Option (Path × UInt64) := do
  let afterKey ← Text.afterStart? "file".toList (← args)
  let afterEquals ← Text.afterStart? ['='] (Text.trimStart afterKey)
  let opened ← Text.afterStart? ['"'] (Text.trimStart afterEquals)
  let (file, afterFile) ← Text.splitFirst? ['"'] opened
  let afterComma ← Text.afterStart? [','] (Text.trimStart afterFile)
  let afterRecord ← Text.afterStart? "record".toList (Text.trimStart afterComma)
  let number ← Text.afterStart? ['='] (Text.trimStart afterRecord)
  let record ← Text.unsigned? (Text.trim number)
  if file.isEmpty then none else some (String.ofList file, record)

/-- The tag of a given name, once name and arguments are apart. -/
def ofParts (name : String) (args : Option (List Char)) : Except Fault Tag :=
  match name with
  | "Import" => (quotedPath? args).elim (.error .path) (.ok ∘ imports)
  | "Examples" => (quotedPath? args).elim (.error .path) (.ok ∘ examples)
  | "Meta" => (quotedPath? args).elim (.error .path) (.ok ∘ definedIn)
  | "Data" => (fileAndRecord? args).elim (.error .record) fun (file, n) => .ok (data file n)
  | "StepDef" => if args.isSome then .error .arguments else .ok stepDef
  | "Ignore" => if args.isSome then .error .arguments else .ok ignore
  | _ => .ok (custom name (args.map String.ofList))

/-- Reads what follows the optional `@`. -/
def parseBody (body : List Char) : Except Fault Tag := do
  let (name, args) ← splitArguments body
  if name.isEmpty || name.any Text.isBlank then .error .name
  else ofParts (String.ofList name) args

/-- Reads a tag, with or without `@` in front and with blanks around it. -/
def parse (text : String) : Except Malformed Tag :=
  let raw := Text.trim text.toList
  let body := (Text.afterStart? ['@'] raw).getD raw
  (parseBody body).mapError fun fault => ⟨String.ofList raw, fault⟩

def render : Tag → String
  | imports path => "@Import(\"" ++ path ++ "\")"
  | examples path => "@Examples(\"" ++ path ++ "\")"
  | data file record => "@Data(file=\"" ++ file ++ "\", record=" ++ toString record.toNat ++ ")"
  | stepDef => "@StepDef"
  | definedIn path => "@Meta(\"" ++ path ++ "\")"
  | ignore => "@Ignore"
  | custom name none => "@" ++ name
  | custom name (some value) => "@" ++ name ++ "(" ++ value ++ ")"

def importPath? : Tag → Option Path
  | imports path => some path
  | _ => none

def examplesPath? : Tag → Option Path
  | examples path => some path
  | _ => none

def isDefinedIn : Tag → Bool
  | definedIn _ => true
  | _ => false

/-- Equality of tags, where paths are compared by their components. -/
def same : Tag → Tag → Bool
  | imports p, imports q => p.same q
  | examples p, examples q => p.same q
  | definedIn p, definedIn q => p.same q
  | data p m, data q n => p.same q && m == n
  | s, t => s == t

end Tag

end Gherkin
