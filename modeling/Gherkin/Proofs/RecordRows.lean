import Gherkin.Proofs.OutlineExpansion

/-! Records and the scenarios of an outline that names the same table. The columns of a record are
what replaces the placeholders in the scenario made from the same row. -/
namespace Gherkin

variable {e : Examples} {ps : List Pairs} {params : Pairs} {i : Nat}

/-- The values of a row are its cells under the columns. -/
theorem Examples.exists_row_of_rowParams (h : e.rowParams = .ok ps) (hi : ps[i]? = some params) :
    ∃ columns rows row, e.table = columns :: rows ∧ rows[i]? = some row ∧
      params = columns.cells.zip row.cells := by
  rcases e with ⟨name, description, _ | ⟨columns, rows⟩, scenarios⟩
  · cases h
    cases hi
  · have hps : ps = rows.map fun row => columns.cells.zip row.cells :=
      Outcome.eq_map_of_mapM (fun _ _ hrow => (Row.under_eq_ok.mp hrow).2) h
    rw [hps, List.getElem?_map, Option.map_eq_some_iff] at hi
    obtain ⟨row, hrow, rfl⟩ := hi
    exact ⟨columns, rows, row, rfl, hrow, rfl⟩

theorem exists_row_of_loadParams {files : FileSystem} {file : Path}
    (h : loadParams files file = .ok ps) (hi : ps[i]? = some params) :
    ∃ columns rows row, loadTable files file = .ok (columns :: rows) ∧ rows[i]? = some row ∧
      params = columns.cells.zip row.cells := by
  obtain ⟨e, he, h⟩ := Outcome.bind_eq_ok.mp h
  obtain ⟨table, htable, he⟩ := Outcome.bind_eq_ok.mp he
  cases he
  obtain ⟨columns, rows, row, rfl, hrow, hparams⟩ := Examples.exists_row_of_rowParams h hi
  exact ⟨columns, rows, row, htable, hrow, hparams⟩

/-- Records and the scenarios of an outline that names one table and has none of its own are made
from the same rows, in the same order, or are refused for the same fault. The columns of each record
are the cells of its row under the names of the columns, and they are what the placeholders of the
outline are replaced by in the scenario. -/
theorem records_agree_with_rows (files : FileSystem) (dir path : Path) (outline : Scenario)
    (hinline : outline.examples = [])
    (hnamed : outline.tags.filterMap Tag.examplesPath? = [path]) :
    let file := dir.join path
    ((∃ records, Record.loadAll files file = .ok records) ↔
      ∃ made, outline.expand files dir = .ok made) ∧
    (∀ records made, Record.loadAll files file = .ok records →
      outline.expand files dir = .ok made →
      made.length = records.length ∧
      ∀ i record, records[i]? = some record →
        record.file = file ∧ record.number = UInt64.ofNat (i + 1) ∧
        (∃ columns rows row, loadTable files file = .ok (columns :: rows) ∧
          rows[i]? = some row ∧ record.columns = columns.cells.zip row.cells) ∧
        ∃ t, made[i]? = some t ∧ outline.MadeOf record.columns.get? 1 (i + 1) file t) ∧
    (∀ fault, Record.loadAll files file = .error fault ↔
      outline.expand files dir = .error fault) ∧
    ∀ rows fault, loadTable files file = .ok rows →
      (Record.loadAll files file = .error fault ↔
        ({ name := file, table := rows } : Examples).RaggedBy fault) := by
  intro file
  rw [Record.loadAll_eq, Scenario.expand_eq hinline hnamed]
  refine ⟨?_, fun records made hrecords hmade => ?_, fun fault => ?_, fun rows fault hrows => ?_⟩
  · rw [Outcome.exists_map_eq_ok, Outcome.exists_map_eq_ok]
  · obtain ⟨ps, hps, rfl⟩ := Outcome.map_eq_ok.mp hrecords
    obtain ⟨ps', hps', rfl⟩ := Outcome.map_eq_ok.mp hmade
    cases hps.symm.trans hps'
    refine ⟨by simp [Record.ofParams, Scenario.ofParams], fun i record hrecord => ?_⟩
    simp only [Record.ofParams, List.getElem?_map, List.getElem?_zipIdx, Option.map_map,
      Option.map_eq_some_iff] at hrecord
    obtain ⟨params, hparams, rfl⟩ := hrecord
    refine ⟨rfl, by simp, exists_row_of_loadParams hps hparams, _, ?_, Scenario.madeOf_iff.mpr rfl⟩
    simp [Scenario.ofParams, hparams, file]
  · rw [Outcome.map_eq_error, Outcome.map_eq_error]
  · rw [Outcome.map_eq_error, loadParams, Examples.load, hrows]
    exact Examples.rowParams_eq_error

/-- The first of the columns of one name counts, and a cell is not searched for placeholders. -/
theorem records_agree_with_rows_guests :
    let greet : Scenario :=
      { tags := [.ignore, .examples "guests.csv"], name := "Greet <guest>",
        steps := [{ keyword := .given, expression := "<guest> comes", table := [["<guest>"]] }] }
    let ragged : Scenario := { greet with tags := [.examples "ragged.csv"] }
    (Record.loadAll guestFiles "./guests.csv").toOption.map (·.map (·.columns)) = some
      [[("guest", "Ada"), ("guest", "<guest>")], [("guest", "Grace"), ("guest", "b\nc")]] ∧
    (∃ made, greet.expand guestFiles "." = .ok made ∧
      made.map (·.name) = ["Greet Ada -- Example 1.1 ./guests.csv",
        "Greet Grace -- Example 1.2 ./guests.csv"] ∧
      made.map (fun t => t.steps.map fun s => (s.expression, s.table)) =
        [[("Ada comes", [["Ada"]])], [("Grace comes", [["Grace"]])]] ∧
      ∃ t, made[1]? = some t ∧
        greet.MadeOf (Pairs.get? [("guest", "Grace"), ("guest", "b\nc")]) 1 2 "./guests.csv" t) ∧
    ragged.expand guestFiles "." = .error (.rowWidth "./ragged.csv" 3 2 1) := by
  intro greet ragged
  obtain ⟨-, hagree, -⟩ :=
    records_agree_with_rows guestFiles "." "guests.csv" greet rfl (by decide)
  obtain ⟨-, -, herror, -⟩ :=
    records_agree_with_rows guestFiles "." "ragged.csv" ragged rfl (by decide)
  have hguests : Path.join "." "guests.csv" = "./guests.csv" := by decide +kernel
  have hragged : Path.join "." "ragged.csv" = "./ragged.csv" := by decide +kernel
  rw [hguests] at hagree
  rw [hragged] at herror
  have hrecords : Record.loadAll guestFiles "./guests.csv" = .ok [
      { file := "./guests.csv", number := 1, columns := [("guest", "Ada"), ("guest", "<guest>")] },
      { file := "./guests.csv", number := 2,
        columns := [("guest", "Grace"), ("guest", "b\nc")] }] := by
    decide +kernel
  have hfault : Record.loadAll guestFiles "./ragged.csv" =
      .error (.rowWidth "./ragged.csv" 3 2 1) := by
    decide +kernel
  have hrun : (greet.expand guestFiles ".").toOption.map (fun made => (made.map (·.name),
      made.map fun t => t.steps.map fun s => (s.expression, s.table))) = some
      (["Greet Ada -- Example 1.1 ./guests.csv", "Greet Grace -- Example 1.2 ./guests.csv"],
        [[("Ada comes", [["Ada"]])], [("Grace comes", [["Grace"]])]]) := by
    decide +kernel
  obtain ⟨made, hmade, htexts⟩ := Outcome.toOption_map_eq_some.mp hrun
  obtain ⟨-, hrows⟩ := hagree _ made hrecords hmade
  obtain ⟨-, -, -, hsecond⟩ := hrows 1 _ rfl
  refine ⟨by rw [hrecords]; rfl, ⟨made, hmade, congrArg Prod.fst htexts, congrArg Prod.snd htexts,
    hsecond⟩, (herror _).mp hfault⟩

end Gherkin
