import Gherkin.Proofs.OutlineRows

/-! What the rows of a table give to its columns. Outlines and records are made from these values, or
refused for the first row that is not as wide as the row of the column names. -/
namespace Gherkin

namespace Examples

variable {e : Examples} {fault : SourceError} {ps : List Pairs}

/-- The values that each row gives to the columns. -/
def rowParams (e : Examples) : Except SourceError (List Pairs) :=
  match e.columns? with
  | none => .ok []
  | some columns => e.dataRows.mapM (columns.under · e.name)

/-- Every row is as wide as the row of the column names. -/
def Even (e : Examples) : Prop :=
  ∀ columns ∈ e.columns?, ∀ row ∈ e.dataRows, row.cells.length = columns.cells.length

/-- The fault of the first row that is not as wide as the row of the column names. -/
def RaggedBy (fault : SourceError) (e : Examples) : Prop :=
  ∃ columns before row after, e.table = columns :: (before ++ row :: after) ∧
    (∀ r ∈ before, r.cells.length = columns.cells.length) ∧
    row.cells.length ≠ columns.cells.length ∧
    fault = .rowWidth e.name row.line columns.cells.length row.cells.length

theorem under_eq_error {columns row : Row} {table : String} :
    columns.under row table = .error fault ↔ row.cells.length ≠ columns.cells.length ∧
      fault = .rowWidth table row.line columns.cells.length row.cells.length := by
  unfold Row.under
  by_cases h : row.cells.length = columns.cells.length
  · simp [h]
  · simp only [bne_iff_ne, ne_eq, h, not_false_eq_true, if_true, Except.error.injEq, true_and]
    exact eq_comm

theorem exists_under_eq_ok {columns row : Row} {table : String} :
    (∃ params, columns.under row table = .ok params) ↔
      row.cells.length = columns.cells.length := by
  simp [Row.under_eq_ok]

theorem rowParams_eq_error : e.rowParams = .error fault ↔ e.RaggedBy fault := by
  rcases e with ⟨name, description, _ | ⟨columns, rows⟩, scenarios⟩
  · simp [rowParams, RaggedBy, columns?]
  · change rows.mapM (columns.under · name) = .error fault ↔ _
    simp only [Outcome.mapM_eq_error, exists_under_eq_ok, under_eq_error]
    constructor
    · rintro ⟨before, row, after, rfl, hbefore, hwidth, hfault⟩
      exact ⟨columns, before, row, after, rfl, hbefore, hwidth, hfault⟩
    · rintro ⟨_, before, row, after, he, hbefore, hwidth, hfault⟩
      cases he
      exact ⟨before, row, after, rfl, hbefore, hwidth, hfault⟩

theorem exists_rowParams_eq_ok : (∃ ps, e.rowParams = .ok ps) ↔ e.Even := by
  rcases e with ⟨name, description, _ | ⟨columns, rows⟩, scenarios⟩
  · simp [rowParams, Even, columns?]
  · change (∃ ps, rows.mapM (columns.under · name) = .ok ps) ↔ _
    simp only [Outcome.exists_mapM_eq_ok, exists_under_eq_ok]
    simp [Even, columns?, dataRows]

end Examples

/-- A scenario for each of these values, numbered from 1. -/
def Scenario.ofParams (outline : Scenario) (block : Nat) (blockName : String) (ps : List Pairs) :
    List Scenario :=
  ps.zipIdx.map fun (params, i) => outline.ofRow params block (i + 1) blockName

/-- A record for each of these values, numbered from 1. -/
def Record.ofParams (file : Path) (ps : List Pairs) : List Record :=
  ps.zipIdx.map fun (columns, i) => { file, number := UInt64.ofNat (i + 1), columns }

theorem Scenario.ofExamples_eq (outline : Scenario) (block : Nat) (e : Examples) :
    outline.ofExamples block e = outline.ofParams block e.name <$> e.rowParams := by
  unfold ofExamples Examples.rowParams
  cases e.columns? with
  | none => rfl
  | some columns =>
    simp only [bind_pure_comp]
    exact Outcome.mapM_zipIdx (columns.under · e.name)
      (fun params i => outline.ofRow params block (i + 1) e.name) e.dataRows 0

theorem Record.ofRows_eq (file : Path) (rows : List Row) :
    ofRows file rows =
      ofParams file <$> ({ name := file, table := rows } : Examples).rowParams := by
  cases rows with
  | nil => rfl
  | cons columns rows =>
    simp only [ofRows, bind_pure_comp]
    exact Outcome.mapM_zipIdx (columns.under · file)
      (fun columns i => ({ file, number := UInt64.ofNat (i + 1), columns } : Record)) rows 0

section Readers

variable {files : FileSystem} {dir path : Path} {outline : Scenario}

/-- The values in a table file. -/
def loadParams (files : FileSystem) (file : Path) : Except SourceError (List Pairs) :=
  Examples.load files file >>= Examples.rowParams

theorem Record.loadAll_eq (files : FileSystem) (file : Path) :
    loadAll files file = ofParams file <$> loadParams files file := by
  rw [loadAll, loadParams, Examples.load]
  cases loadTable files file with
  | error e => rfl
  | ok rows => exact Record.ofRows_eq file rows

theorem Examples.name_of_load {e : Examples} (h : Examples.load files path = .ok e) :
    e.name = path := by
  obtain ⟨rows, -, h⟩ := Outcome.bind_eq_ok.mp h
  cases h
  rfl

namespace Scenario

theorem tables_of_named {named : List Examples}
    (h : List.Forall₂ (fun path e => Examples.load files (dir.join path) = .ok e)
      (outline.tags.filterMap Tag.examplesPath?) named) :
    outline.tables files dir = .ok (outline.examples ++ named) := by
  rw [tables, Outcome.mapM_eq_ok.mpr h]
  rfl

/-- Some tables, each with the values that its rows give to the columns. -/
def allParams (tables : List Examples) : Except SourceError (List (Examples × List Pairs)) :=
  tables.mapM fun e => Prod.mk e <$> e.rowParams

/-- The tables with the scenarios made from these values, numbered from 1. -/
def filled (outline : Scenario) (xs : List (Examples × List Pairs)) : List Examples :=
  xs.zipIdx.map fun ((e, ps), i) => { e with scenarios := outline.ofParams (i + 1) e.name ps }

theorem expandTables_eq {tables : List Examples} (h : outline.tables files dir = .ok tables) :
    outline.expandTables files dir = outline.filled <$> allParams tables := by
  rw [expandTables, h, Outcome.ok_bind]
  simp only [ofExamples_eq, bind_pure_comp, Functor.map_map]
  have hloop := Outcome.mapM_zipIdx (fun e => Prod.mk e <$> e.rowParams)
    (fun (x : Examples × List Pairs) i =>
      { x.1 with scenarios := outline.ofParams (i + 1) x.1.name x.2 }) tables 0
  simp only [Functor.map_map] at hloop
  exact hloop

theorem expand_eq (hinline : outline.examples = [])
    (hnamed : outline.tags.filterMap Tag.examplesPath? = [path]) :
    outline.expand files dir =
      outline.ofParams 1 (dir.join path) <$> loadParams files (dir.join path) := by
  rw [loadParams]
  cases hload : Examples.load files (dir.join path) with
  | error fault =>
    rw [expand, expandTables, tables, hnamed, List.mapM_cons, hload]
    rfl
  | ok e =>
    have htables : outline.tables files dir = .ok (outline.examples ++ [e]) :=
      tables_of_named (by rw [hnamed]; exact .cons hload .nil)
    rw [hinline, List.nil_append] at htables
    rw [expand, expandTables_eq htables, Outcome.ok_bind, allParams, List.mapM_cons,
      ← Examples.name_of_load hload]
    cases e.rowParams with
    | error fault => rfl
    | ok ps => exact congrArg Except.ok (List.append_nil _)

end Scenario

end Readers

end Gherkin
