import Gherkin.Proofs.MetaForm

/-! The scenarios that one stands for: itself, or those made from the rows of an outline's tables,
table after table. -/
namespace Gherkin

theorem Row.under_eq_ok {columns row : Row} {table : String} {params : Pairs} :
    columns.under row table = .ok params ↔
      row.cells.length = columns.cells.length ∧ params = columns.cells.zip row.cells := by
  unfold Row.under
  by_cases h : row.cells.length = columns.cells.length
  · simp only [h, bne_self_eq_false, Bool.false_eq_true, if_false, Except.ok.injEq, true_and]
    exact eq_comm
  · simp [h]

theorem Row.under_ne_examples {columns row : Row} {table name : String} :
    columns.under row table ≠ .error (.examplesOnScenario name) := by
  unfold Row.under
  split <;> simp

theorem loadTable_ne_examples {files : FileSystem} {path : Path} {name : String} :
    loadTable files path ≠ .error (.examplesOnScenario name) := by
  intro h
  unfold loadTable at h
  split at h
  · cases h
  · split at h
    · cases h
    · cases ht : (files.read? path).bind Csv.parse? <;> rw [ht] at h <;> cases h

namespace Scenario

variable {files : FileSystem} {dir : Path} {s t : Scenario} {ss : List Scenario} {name : String}

/-- The scenarios made from a table, which is the `block`th, one for each row. -/
def rowsOf (outline : Scenario) (block : Nat) (e : Examples) : List Scenario :=
  match e.columns? with
  | none => []
  | some columns => e.dataRows.zipIdx.map fun (row, i) =>
    outline.ofRow (columns.cells.zip row.cells) block (i + 1) e.name

/-- The scenarios made from the tables in the outline and then from those its tags name. -/
def Expands (files : FileSystem) (dir : Path) (outline : Scenario) (made : List Scenario) : Prop :=
  ∃ named, List.Forall₂ (fun path e => Examples.load files (dir.join path) = .ok e)
      (outline.tags.filterMap Tag.examplesPath?) named ∧
    made = (outline.examples ++ named).zipIdx.flatMap fun (e, i) => outline.rowsOf (i + 1) e

/-- An outline stands for its expansion, any other scenario for itself. -/
def StandsFor (files : FileSystem) (dir : Path) (s : Scenario) (made : List Scenario) : Prop :=
  (s.isOutline = false → made = [s]) ∧ (s.isOutline = true → s.Expands files dir made)

theorem eq_rowsOf_of_ofExamples {block : Nat} {e : Examples} (h : s.ofExamples block e = .ok ss) :
    ss = s.rowsOf block e := by
  unfold ofExamples at h
  split at h
  · next hc =>
    cases h
    rw [rowsOf, hc]
  · next columns hc =>
    rw [rowsOf, hc]
    refine Outcome.eq_map_of_mapM (fun ⟨row, i⟩ made hrow => ?_) h
    obtain ⟨params, hp, hrow⟩ := Outcome.bind_eq_ok.mp hrow
    cases hrow
    rw [(Row.under_eq_ok.mp hp).2]

/-- Each table is kept, with the scenarios made from its rows. -/
theorem expandTables_ok {blocks : List Examples} (h : s.expandTables files dir = .ok blocks) :
    ∃ named, List.Forall₂ (fun path e => Examples.load files (dir.join path) = .ok e)
        (s.tags.filterMap Tag.examplesPath?) named ∧
      blocks = (s.examples ++ named).zipIdx.map fun (e, i) =>
        { e with scenarios := s.rowsOf (i + 1) e } := by
  obtain ⟨tables, ht, h⟩ := Outcome.bind_eq_ok.mp h
  obtain ⟨named, hn, ht⟩ := Outcome.bind_eq_ok.mp ht
  cases ht
  refine ⟨named, Outcome.mapM_eq_ok.mp hn, Outcome.eq_map_of_mapM (fun ⟨e, i⟩ full hfull => ?_) h⟩
  obtain ⟨made, hmade, hfull⟩ := Outcome.bind_eq_ok.mp hfull
  cases hfull
  rw [eq_rowsOf_of_ofExamples hmade]

theorem expands_of_expand (h : s.expand files dir = .ok ss) : s.Expands files dir ss := by
  obtain ⟨blocks, hblocks, h⟩ := Outcome.bind_eq_ok.mp h
  cases h
  obtain ⟨named, hnamed, rfl⟩ := expandTables_ok hblocks
  exact ⟨named, hnamed, List.flatMap_map ..⟩

theorem standsFor_of_unfold (h : s.unfold files dir = .ok ss) : s.StandsFor files dir ss := by
  unfold unfold at h
  split at h
  · next ho => exact ⟨by simp [ho], fun _ => expands_of_expand h⟩
  · next ho =>
    split at h
    · cases h
    · cases h
      exact ⟨fun _ => rfl, fun hs => absurd hs ho⟩

/-- What stands in an expansion was made from some row. -/
theorem Expands.exists_row (h : s.Expands files dir ss) (ht : t ∈ ss) :
    ∃ params block row blockName, t = s.ofRow params block row blockName := by
  obtain ⟨named, -, rfl⟩ := h
  obtain ⟨⟨e, i⟩, -, ht⟩ := List.mem_flatMap.mp ht
  change t ∈ s.rowsOf (i + 1) e at ht
  unfold rowsOf at ht
  split at ht
  · cases ht
  · obtain ⟨⟨row, j⟩, -, rfl⟩ := List.mem_map.mp ht
    exact ⟨_, _, _, _, rfl⟩

/-- No outline, and without the tags that only an outline has. -/
structure Concrete (s : Scenario) : Prop where
  isOutline : s.isOutline = false
  tags : ∀ t ∈ s.tags, t.examplesPath? = none

theorem concrete_ofRow (params : Pairs) (block row : Nat) (blockName : String) :
    (s.ofRow params block row blockName).Concrete :=
  ⟨rfl, fun _ h => Option.isNone_iff_eq_none.mp (List.mem_filter.mp h).2⟩

theorem concrete_of_unfold (h : s.unfold files dir = .ok ss) (ht : t ∈ ss) : t.Concrete := by
  unfold unfold at h
  split at h
  · obtain ⟨_, _, _, _, rfl⟩ := (expands_of_expand h).exists_row ht
    exact concrete_ofRow _ _ _ _
  · next ho =>
    split at h
    · cases h
    · next hnone =>
      cases h
      rw [List.mem_singleton.mp ht]
      exact ⟨by simpa using ho, by simpa using hnone⟩

/-- Rows change neither the background nor the file. -/
theorem StandsFor.kept (h : s.StandsFor files dir ss) (ht : t ∈ ss) :
    t.background = s.background ∧ t.metaFile = s.metaFile := by
  cases ho : s.isOutline with
  | false =>
    rw [h.1 ho] at ht
    rw [List.mem_singleton.mp ht]
    exact ⟨rfl, rfl⟩
  | true =>
    obtain ⟨_, _, _, _, rfl⟩ := (h.2 ho).exists_row ht
    exact ⟨rfl, rfl⟩

/-- What stands for a step definition are step definitions, and nothing else is. -/
theorem StandsFor.isStepDef (h : s.StandsFor files dir ss) (ht : t ∈ ss) :
    t.isStepDef = s.isStepDef := by
  cases ho : s.isOutline with
  | false =>
    rw [h.1 ho] at ht
    rw [List.mem_singleton.mp ht]
  | true =>
    obtain ⟨_, _, _, _, rfl⟩ := (h.2 ho).exists_row ht
    simp [isStepDef, ofRow, Tag.examplesPath?]

theorem ofExamples_ne_examples {block : Nat} {e : Examples} :
    s.ofExamples block e ≠ .error (.examplesOnScenario name) := by
  intro h
  unfold ofExamples at h
  split at h
  · cases h
  · obtain ⟨_, -, h⟩ := Outcome.exists_of_mapM_eq_error h
    rcases Outcome.bind_eq_error.mp h with h | ⟨_, -, h⟩
    · exact Row.under_ne_examples h
    · cases h

theorem expand_ne_examples : s.expand files dir ≠ .error (.examplesOnScenario name) := by
  intro h
  rcases Outcome.bind_eq_error.mp h with h | ⟨_, -, h⟩
  · rcases Outcome.bind_eq_error.mp h with h | ⟨_, -, h⟩
    · rcases Outcome.bind_eq_error.mp h with h | ⟨_, -, h⟩
      · obtain ⟨_, -, h⟩ := Outcome.exists_of_mapM_eq_error h
        rcases Outcome.bind_eq_error.mp h with h | ⟨_, -, h⟩
        · exact loadTable_ne_examples h
        · cases h
      · cases h
    · obtain ⟨_, -, h⟩ := Outcome.exists_of_mapM_eq_error h
      rcases Outcome.bind_eq_error.mp h with h | ⟨_, -, h⟩
      · exact ofExamples_ne_examples h
      · cases h
  · cases h

/-- The one scenario refused for its tags is no outline but names a table. -/
theorem unfold_eq_examples (h : s.unfold files dir = .error (.examplesOnScenario name)) :
    s.name = name ∧ s.isOutline = false ∧ ∃ path, .examples path ∈ s.tags := by
  unfold unfold at h
  split at h
  · exact absurd h expand_ne_examples
  · next ho =>
    split at h
    · next hany =>
      cases h
      obtain ⟨tag, ht, hsome⟩ := List.any_eq_true.mp hany
      refine ⟨rfl, by simpa using ho, ?_⟩
      cases tag with
      | examples path => exact ⟨path, ht⟩
      | _ => simp [Tag.examplesPath?] at hsome
    · cases h

end Scenario

end Gherkin
