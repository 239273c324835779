import Gherkin.Proofs.Substitution
import Gherkin.Proofs.TableRows

/-! What an outline becomes. Each row of a table makes one scenario, in which the cells of the row
stand for the columns, and no two scenarios of one table have the same name. -/
namespace Gherkin

namespace Text

variable {c : Char} {s t u v : List Char}

/-- Trimming stops at a character that is not blank. -/
theorem trimEnd_append (h : ∃ c ∈ s.getLast?, isBlank c = false) (t : List Char) :
    trimEnd (s ++ t) = s ++ trimEnd t := by
  obtain ⟨c, hc, hblank⟩ := h
  obtain ⟨s, rfl⟩ := List.getLast?_eq_some_iff.mp hc
  simp only [trimEnd, List.reverse_append, List.dropWhile_append]
  split
  · next hnil =>
    rw [List.isEmpty_iff] at hnil
    simp [hnil, hblank]
  · simp

/-- A text is cut at the last place of a character in one way only. -/
theorem eq_of_append_cons (hs : c ∉ s) (ht : c ∉ t) (h : u ++ c :: s = v ++ c :: t) : s = t := by
  have hcut : s.reverse ++ c :: u.reverse = t.reverse ++ c :: v.reverse := by
    simpa using congrArg List.reverse h
  have hleft : splitFirst? [c] (s.reverse ++ c :: u.reverse) = some (s.reverse, u.reverse) :=
    splitFirst?_singleton_eq_some.mpr ⟨rfl, by simpa using hs⟩
  have hright : splitFirst? [c] (s.reverse ++ c :: u.reverse) = some (t.reverse, v.reverse) :=
    splitFirst?_singleton_eq_some.mpr ⟨hcut, by simpa using ht⟩
  have hsame := Option.some.inj (hleft.symm.trans hright)
  exact List.reverse_inj.mp (Prod.mk.inj hsame).1

end Text

theorem nodup_map_zipIdx {α β : Type} {f : α × Nat → β}
    (h : ∀ x i y j, f (x, i) = f (y, j) → i = j) (xs : List α) (k : Nat) :
    ((xs.zipIdx k).map f).Nodup := by
  induction xs generalizing k with
  | nil => exact List.nodup_nil
  | cons x xs ih =>
    rw [List.zipIdx_cons, List.map_cons, List.nodup_cons]
    refine ⟨fun hmem => ?_, ih (k + 1)⟩
    obtain ⟨⟨y, j⟩, hj, he⟩ := List.mem_map.mp hmem
    have hlt : k + 1 ≤ j := List.le_snd_of_mem_zipIdx hj
    have hk : j = k := h y j x k he
    omega

namespace Scenario

variable {outline : Scenario} {params params' : Pairs} {block row row' : Nat} {blockName : String}

/-- The number of the row is the last one in front of the name of the table. -/
theorem toList_exampleName (outline : Scenario) (params : Pairs) (block row : Nat)
    (blockName : String) :
    (outline.exampleName params block row blockName).toList =
      ((Template.substitute outline.name params).toList ++ " -- Example ".toList ++
        Nat.toDigits 10 block) ++ '.' :: Nat.toDigits 10 row ++
        Text.trimEnd (' ' :: blockName.toList) := by
  have hlast : ∃ c ∈ (((Template.substitute outline.name params).toList ++
      " -- Example ".toList ++ Nat.toDigits 10 block) ++ '.' :: Nat.toDigits 10 row).getLast?,
      Text.isBlank c = false := by
    obtain ⟨c, hc⟩ : ∃ c, (Nat.toDigits 10 row).getLast? = some c :=
      Option.isSome_iff_exists.mp (List.getLast?_isSome.mpr Nat.toDigits_ne_nil)
    refine ⟨c, by simp [List.getLast?_append, List.getLast?_cons, hc], ?_⟩
    exact Text.isBlank_of_isDigit (Text.isDigit_of_mem_toDigits (List.mem_of_getLast? hc))
  rw [← Text.trimEnd_append hlast, exampleName, String.toList_ofList]
  simp [String.toList_append]

theorem exampleName_inj (h : outline.exampleName params block row blockName =
    outline.exampleName params' block row' blockName) : row = row' := by
  have hdot : ∀ n, '.' ∉ Nat.toDigits 10 n := fun n hm =>
    absurd (Text.isDigit_of_mem_toDigits hm) (by decide)
  have hlist := congrArg String.toList h
  rw [toList_exampleName, toList_exampleName] at hlist
  have hdigits := Text.eq_of_append_cons (hdot row) (hdot row') (List.append_cancel_right hlist)
  rw [← Nat.ofDigitChars_ten_toDigits (n := row), hdigits, Nat.ofDigitChars_ten_toDigits]

end Scenario

/-- The cell of a row that stands under the first column of this name. -/
def Row.cell? (columns row : Row) (name : String) : Option String :=
  (columns.cells.idxOf? name).bind (row.cells[·]?)

theorem Row.get?_zip (columns row : Row) :
    Pairs.get? (columns.cells.zip row.cells) = columns.cell? row :=
  funext fun name => Pairs.get?_zip_eq columns.cells row.cells name

/-- One step is the other with the placeholders in its text and in its table replaced. -/
structure Step.Replaced (value? : String → Option String) (s t : Step) : Prop where
  others : t = { s with expression := t.expression, table := t.table }
  expression : Template.Replaces value? s.expression t.expression
  table : List.Forall₂ (List.Forall₂ (Template.Replaces value?)) s.table t.table

theorem Template.forall₂_replaces_iff {params : Pairs} {ss ts : List String} :
    List.Forall₂ (Replaces params.get?) ss ts ↔ ts = ss.map (substitute · params) :=
  forall₂_iff_eq_map fun _ _ => replaces_iff

theorem Step.replaced_iff {params : Pairs} {s t : Step} :
    s.Replaced params.get? t ↔ t = s.substitute params := by
  have htable {rows : List (List String)} :
      List.Forall₂ (List.Forall₂ (Template.Replaces params.get?)) s.table rows ↔
        rows = s.table.map fun row => row.map fun cell => Template.substitute cell params :=
    forall₂_iff_eq_map fun _ _ => Template.forall₂_replaces_iff
  constructor
  · rintro ⟨hothers, hexpression, hrows⟩
    rw [hothers, Template.replaces_iff.mp hexpression, htable.mp hrows]
    rfl
  · rintro rfl
    exact ⟨rfl, Template.replaces_iff.mpr rfl, htable.mpr rfl⟩

theorem Step.forall₂_replaced_iff {params : Pairs} {ss ts : List Step} :
    List.Forall₂ (Step.Replaced params.get?) ss ts ↔ ts = ss.map (·.substitute params) :=
  forall₂_iff_eq_map fun _ _ => Step.replaced_iff

namespace Scenario

variable {files : FileSystem} {dir : Path} {outline t : Scenario} {params : Pairs}
  {block row : Nat} {blockName : String} {e : Examples} {fault : SourceError}

/-- What a row makes of an outline. The name tells the table and the row, both counted from 1. -/
structure MadeOf (outline : Scenario) (value? : String → Option String) (block row : Nat)
    (blockName : String) (t : Scenario) : Prop where
  others : t = { outline with
    tags := t.tags, name := t.name, description := t.description, steps := t.steps
    isOutline := false, examples := [] }
  tags : t.tags = outline.tags.filter (·.examplesPath?.isNone)
  name : ∃ name, Template.Replaces value? outline.name name ∧
    t.name = String.ofList (Text.trimEnd (name ++ " -- Example " ++ toString block ++ "." ++
      toString row ++ " " ++ blockName).toList)
  description : List.Forall₂ (Template.Replaces value?) outline.description t.description
  steps : List.Forall₂ (Step.Replaced value?) outline.steps t.steps

theorem madeOf_iff : outline.MadeOf params.get? block row blockName t ↔
    t = outline.ofRow params block row blockName := by
  constructor
  · rintro ⟨hothers, htags, ⟨name, hname, ht⟩, hdescription, hsteps⟩
    rw [hothers, htags, ht, Template.replaces_iff.mp hname,
      Template.forall₂_replaces_iff.mp hdescription, Step.forall₂_replaced_iff.mp hsteps]
    rfl
  · rintro rfl
    exact ⟨rfl, rfl, ⟨_, Template.replaces_iff.mpr rfl, rfl⟩,
      Template.forall₂_replaces_iff.mpr rfl, Step.forall₂_replaced_iff.mpr rfl⟩

/-- What the rows of a table make of an outline: a scenario for each row below the columns. -/
structure Makes (outline : Scenario) (block : Nat) (e : Examples) (made : List Scenario) :
    Prop where
  count : made.length = e.table.length - 1
  rows : ∀ columns rows, e.table = columns :: rows →
    List.Forall₂ (fun (row, i) t => row.cells.length = columns.cells.length ∧
      outline.MadeOf (columns.cell? row) block (i + 1) e.name t) rows.zipIdx made
  distinct : (made.map (·.name)).Nodup

theorem makes_rowsOf (outline : Scenario) (block : Nat) (he : e.Even) :
    outline.Makes block e (outline.rowsOf block e) := by
  rcases e with ⟨name, description, _ | ⟨columns, rows⟩, scenarios⟩
  · exact ⟨rfl, by rintro _ _ ⟨⟩, List.nodup_nil⟩
  · have hrows : outline.rowsOf block ⟨name, description, columns :: rows, scenarios⟩ =
        rows.zipIdx.map fun (row, i) =>
          outline.ofRow (columns.cells.zip row.cells) block (i + 1) name := rfl
    rw [hrows]
    refine ⟨by simp, ?_, ?_⟩
    · rintro _ _ ⟨⟩
      rw [List.forall₂_map_right_iff, List.forall₂_same]
      rintro ⟨row, i⟩ hmem
      refine ⟨he columns rfl row (List.fst_mem_of_mem_zipIdx hmem), ?_⟩
      rw [← Row.get?_zip]
      exact madeOf_iff.mpr rfl
    · rw [List.map_map]
      exact nodup_map_zipIdx (fun _ i _ j h => Nat.succ.inj (exampleName_inj h)) rows 0

theorem exists_pair_eq_ok : (∃ x, Prod.mk e <$> e.rowParams = .ok x) ↔ e.Even := by
  rw [Outcome.exists_map_eq_ok, Examples.exists_rowParams_eq_ok]

/-- The first row of another width is the first in the first table that has one. -/
theorem allParams_eq_error {tables : List Examples} :
    allParams tables = .error fault ↔ ∃ before e after, tables = before ++ e :: after ∧
      (∀ x ∈ before, x.Even) ∧ e.RaggedBy fault := by
  simp only [allParams, Outcome.mapM_eq_error, Outcome.map_eq_error, Examples.rowParams_eq_error,
    exists_pair_eq_ok]

theorem exists_allParams_eq_ok {tables : List Examples} :
    (∃ ps, allParams tables = .ok ps) ↔ ∀ e ∈ tables, e.Even := by
  simp only [allParams, Outcome.exists_mapM_eq_ok, exists_pair_eq_ok]

theorem even_of_expandTables {tables blocks : List Examples}
    (h : outline.tables files dir = .ok tables)
    (hblocks : outline.expandTables files dir = .ok blocks) : ∀ e ∈ tables, e.Even := by
  rw [expandTables_eq h] at hblocks
  obtain ⟨ps, hps, -⟩ := Outcome.map_eq_ok.mp hblocks
  exact exists_allParams_eq_ok.mp ⟨ps, hps⟩

theorem expand_eq_error {tables : List Examples} (h : outline.tables files dir = .ok tables) :
    outline.expand files dir = .error fault ↔ allParams tables = .error fault := by
  rw [expand, bind_pure_comp, Outcome.map_eq_error, expandTables_eq h, Outcome.map_eq_error]

/-- An outline is expanded into the scenarios of its tables, first those written in it and then
those its tags name. Each has a scenario for each row, with the cells of the row for the columns, and
no name twice. If the tables can be read, it is refused exactly if some row is not as wide as the row
of the column names, and for the first such row in the order of the tables. -/
theorem expand_substitutes_rows (files : FileSystem) (dir : Path) (outline : Scenario) :
    let Named := List.Forall₂ (fun path e => Examples.load files (dir.join path) = .ok e)
      (outline.tags.filterMap Tag.examplesPath?)
    (∀ made, outline.expand files dir = .ok made → ∃ named blocks, Named named ∧
      outline.expandTables files dir = .ok blocks ∧
      List.Forall₂ (fun (e, i) block => ∃ scenarios, block = { e with scenarios } ∧
        outline.Makes (i + 1) e scenarios) (outline.examples ++ named).zipIdx blocks ∧
      made = blocks.flatMap (·.scenarios)) ∧
    ∀ named, Named named →
      ((∃ fault, outline.expand files dir = .error fault) ↔
        ∃ e ∈ outline.examples ++ named, ¬ e.Even) ∧
      ∀ fault, outline.expand files dir = .error fault ↔
        ∃ before e after, outline.examples ++ named = before ++ e :: after ∧
          (∀ x ∈ before, x.Even) ∧ e.RaggedBy fault := by
  intro Named
  refine ⟨fun made hmade => ?_, fun named hnamed => ⟨?_, fun fault => ?_⟩⟩
  · obtain ⟨blocks, hblocks, hmade⟩ := Outcome.bind_eq_ok.mp hmade
    cases hmade
    obtain ⟨named, hnamed, rfl⟩ := expandTables_ok hblocks
    have heven := even_of_expandTables (tables_of_named hnamed) hblocks
    refine ⟨named, _, hnamed, hblocks, ?_, rfl⟩
    rw [List.forall₂_map_right_iff, List.forall₂_same]
    rintro ⟨e, i⟩ hmem
    exact ⟨_, rfl, makes_rowsOf outline (i + 1) (heven e (List.fst_mem_of_mem_zipIdx hmem))⟩
  · simp only [expand_eq_error (tables_of_named hnamed), Outcome.exists_eq_error,
      exists_allParams_eq_ok, not_forall, exists_prop]
  · rw [expand_eq_error (tables_of_named hnamed), allParams_eq_error]

end Scenario

/-- A table in which a column comes twice and a cell looks like a placeholder, and one whose second
and third rows are too short. -/
def guestFiles : FileSystem where
  root := .dir [
    ("guests.csv", .file "guest,guest\nAda,<guest>\nGrace,\"b\nc\"\n".toUTF8),
    ("ragged.csv", .file "guest,role\nAda,admin\nGrace\nEve\n".toUTF8)]

/-- A table in the outline with a cell that looks like a placeholder, behind it one that a tag
names; and the same outline with a table named whose second row is the first that is too short. -/
theorem Scenario.expand_substitutes_rows_guests :
    let inline : Examples :=
      { name := "inline", table := [{ cells := ["guest"] }, { cells := ["<guest> "] }] }
    let greet : Scenario :=
      { tags := [.ignore, .examples "guests.csv"], name := "Greet <guest>", examples := [inline] }
    let ragged : Scenario := { greet with tags := [.examples "ragged.csv"] }
    (∃ guests first second, Examples.load guestFiles "./guests.csv" = .ok guests ∧
      greet.expand guestFiles "." = .ok (first ++ second) ∧ greet.Makes 1 inline first ∧
      greet.Makes 2 guests second ∧ first.length = 1 ∧ second.length = 2) ∧
    ragged.expand guestFiles "." = .error (.rowWidth "./ragged.csv" 3 2 1) := by
  intro inline greet ragged
  have hguests : Path.join "." "guests.csv" = "./guests.csv" := by decide +kernel
  have hragged : Path.join "." "ragged.csv" = "./ragged.csv" := by decide +kernel
  constructor
  · have hok : (greet.expand guestFiles ".").toOption.isSome = true := by decide +kernel
    have hrows : (Examples.load guestFiles "./guests.csv").toOption.map (·.table.length) =
        some 3 := by
      decide +kernel
    obtain ⟨made, hmade⟩ : ∃ made, greet.expand guestFiles "." = .ok made := by
      cases h : greet.expand guestFiles "." with
      | ok made => exact ⟨made, rfl⟩
      | error fault => simp [h, Except.toOption] at hok
    obtain ⟨named, blocks, hnamed, -, hmakes, rfl⟩ :=
      (expand_substitutes_rows guestFiles "." greet).1 made hmade
    obtain _ | ⟨hload, ⟨⟩⟩ := hnamed
    obtain _ | ⟨⟨first, rfl, hfirst⟩, _ | ⟨⟨second, rfl, hsecond⟩, ⟨⟩⟩⟩ := hmakes
    rw [hguests] at hload
    have hcount : second.length = 2 := by
      simp only [hload, Except.toOption, Option.map_some, Option.some.injEq] at hrows
      rw [hsecond.count, hrows]
    exact ⟨_, first, second, hload, by simpa using hmade, hfirst, hsecond, hfirst.count, hcount⟩
  · let rows : List Row := [
      { line := 1, cells := ["guest", "role"] }, { line := 2, cells := ["Ada", "admin"] },
      { line := 3, cells := ["Grace"] }, { line := 4, cells := ["Eve"] }]
    have htable : loadTable guestFiles "./ragged.csv" = .ok rows := by decide +kernel
    have hload : Examples.load guestFiles (Path.join "." "ragged.csv") =
        .ok { name := "./ragged.csv", table := rows } := by
      rw [hragged, Examples.load, htable]
      rfl
    have heven : inline.Even := by
      rintro _ ⟨⟩ row hrow
      rw [List.mem_singleton.mp hrow]
      rfl
    refine (((expand_substitutes_rows guestFiles "." ragged).2 _ (.cons hload .nil)).2 _).mpr
      ⟨[inline], _, [], rfl, by simpa using heven, _, [_], _, [_], rfl, ?_, ?_, rfl⟩
    · simp
    · decide

end Gherkin
