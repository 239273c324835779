import Gherkin.Record
import Gherkin.Template

/-!
An outline stands for one scenario per row of its tables: first the tables written in it, then those
that its tags name. The cells of a row replace the placeholders, all at once.
-/

namespace Gherkin

namespace Step

/-- The text and the table of the step with the placeholders replaced. -/
def substitute (params : Pairs) (s : Step) : Step :=
  { s with expression := Template.substitute s.expression params
           table := s.table.map fun row => row.map fun cell => Template.substitute cell params }

end Step

namespace Scenario

/-- The name of the scenario made from a row, both counted from 1. -/
def exampleName (outline : Scenario) (params : Pairs) (block row : Nat) (blockName : String) :
    String :=
  let name := Template.substitute outline.name params ++ " -- Example " ++ toString block ++ "." ++
    toString row ++ " " ++ blockName
  String.ofList (Text.trimEnd name.toList)

/-- The scenario made from a row. -/
def ofRow (outline : Scenario) (params : Pairs) (block row : Nat) (blockName : String) :
    Scenario :=
  { outline with
    tags := outline.tags.filter fun t => t.examplesPath?.isNone
    name := outline.exampleName params block row blockName
    description := outline.description.map fun line => Template.substitute line params
    steps := outline.steps.map (·.substitute params)
    isOutline := false
    examples := [] }

/-- The scenarios made from one table, which is the `block`th. -/
def ofExamples (outline : Scenario) (block : Nat) (e : Examples) :
    Except SourceError (List Scenario) :=
  match e.columns? with
  | none => .ok []
  | some columns => e.dataRows.zipIdx.mapM fun (row, i) => do
    return outline.ofRow (← columns.under row e.name) block (i + 1) e.name

/-- The tables of an outline, from the directory where relative paths start. -/
def tables (files : FileSystem) (dir : Path) (outline : Scenario) :
    Except SourceError (List Examples) := do
  let named ← (outline.tags.filterMap Tag.examplesPath?).mapM fun path =>
    Examples.load files (dir.join path)
  return outline.examples ++ named

/-- The tables of an outline, each with the scenarios made from it. -/
def expandTables (files : FileSystem) (dir : Path) (outline : Scenario) :
    Except SourceError (List Examples) := do
  let tables ← outline.tables files dir
  tables.zipIdx.mapM fun (e, i) => do
    return { e with scenarios := ← outline.ofExamples (i + 1) e }

/-- The scenarios an outline stands for. -/
def expand (files : FileSystem) (dir : Path) (outline : Scenario) :
    Except SourceError (List Scenario) := do
  return (← outline.expandTables files dir).flatMap (·.scenarios)

end Scenario

end Gherkin
