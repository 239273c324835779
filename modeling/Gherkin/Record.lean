import Gherkin.Csv
import Gherkin.Reference
import Gherkin.Source

/-!
Tables kept in files: as the examples of an outline, and as data records that are bound one at a
time before a feature runs.
-/

namespace Gherkin

def tableExtension : String := "csv"

/-- One row of a data file, counted from 1, with the name of each column. -/
structure Record where
  file : Path
  number : UInt64
  columns : Pairs
deriving DecidableEq, Repr

/-- The rows of a table file. -/
def loadTable (files : FileSystem) (path : Path) : Except SourceError (List Row) :=
  if path.extension? != some tableExtension then .error (.unsupportedTable path)
  else if !files.isFile path then .error (.missingTable path)
  else ((files.read? path).bind Csv.parse?).elim (.error (.malformedTable path)) .ok

/-- The cells of a row under the names of the columns, or an error if their numbers differ. -/
def Row.under (columns row : Row) (table : String) : Except SourceError Pairs :=
  if row.cells.length != columns.cells.length then
    .error (.rowWidth table row.line columns.cells.length row.cells.length)
  else .ok (columns.cells.zip row.cells)

/-- A table as examples, named after its file. -/
def Examples.load (files : FileSystem) (path : Path) : Except SourceError Examples := do
  return { name := path, table := ← loadTable files path }

namespace Record

open Json in
def toJson (r : Record) : Json :=
  obj [("file", str r.file), ("record", nat r.number.toNat), ("columns", pairs r.columns)]

/-- A pair of texts. -/
def pairOfJson? : Json → Option (String × String)
  | .arr [.str k, .str v] => some (k, v)
  | _ => none

open Json in
def ofJson? (j : Json) : Option Record := do
  let fields ← record? ["file", "record", "columns"] j
  let number ← need fields "record" nat?
  if number < UInt64.size then
    some { file := ← need fields "file" str?
           number := UInt64.ofNat number
           columns := ← need fields "columns" (list? pairOfJson?) }
  else none

/-- The rows below the column names, numbered. -/
def ofRows (file : Path) : List Row → Except SourceError (List Record)
  | [] => .ok []
  | columns :: rows => rows.zipIdx.mapM fun (row, i) => do
    return { file, number := UInt64.ofNat (i + 1), columns := ← columns.under row file }

def loadAll (files : FileSystem) (path : Path) : Except SourceError (List Record) := do
  ofRows path (← loadTable files path)

def binderName : String := "Bind data attributes"

/-- The step that binds a column. Name and value are escaped, so that they stand for themselves. -/
def bindingStep (keyword : Keyword) (name value : String) : Step :=
  { keyword
    expression := Reference.escape name ++ " is \"" ++ Reference.escape value ++ "\"" }

/-- The first step is given, and more of them follow. -/
def bindingSteps : Pairs → List Step
  | [] => []
  | (name, value) :: rest =>
    bindingStep .given name value :: rest.map fun (name, value) => bindingStep .and name value

/-- The scenario that binds every column of a record. -/
def binder (r : Record) : Scenario :=
  { tags := [.data r.file r.number], name := binderName, steps := bindingSteps r.columns }

end Record

end Gherkin
