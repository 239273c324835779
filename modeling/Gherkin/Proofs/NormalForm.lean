import Gherkin.Proofs.LoadedMetas
import Gherkin.Proofs.OutlineRows

/-! The normal form of a feature: what its scenarios become, what becomes of those in meta files, and
which scenario it is that has none. -/
namespace Gherkin

open Import

namespace Scenario

variable {files : FileSystem} {dir : Path} {s t : Scenario} {p : Path}

/-- One scenario is the other, but that it has got the background if it runs and had none. -/
structure Furnished (background : Option Background) (s t : Scenario) : Prop where
  others : t = { s with background := t.background }
  runs : s.isStepDef = false → s.background = none → t.background = background
  defines : s.isStepDef = true → t.background = s.background
  owns : s.background.isSome = true → t.background = s.background

/-- A step definition of this meta file. -/
structure OwnedBy (p : Path) (s : Scenario) : Prop where
  isStepDef : s.isStepDef = true
  metaFile : s.metaFile = some p
  definedIn : .definedIn p ∈ s.tags
  background : s.background = none

theorem furnished_withBackground (background : Option Background) (s : Scenario) :
    s.Furnished background (s.withBackground background) := by
  unfold withBackground
  split
  · next h =>
    refine ⟨by cases s; rfl, fun hs hb => ?_, fun _ => rfl, fun _ => rfl⟩
    simp [hs, hb] at h
  · next h =>
    simp only [Bool.or_eq_true, not_or] at h
    exact ⟨rfl, fun _ _ => rfl, fun hs => absurd hs h.1, fun hb => absurd hb h.2⟩

theorem Furnished.eq_of_isStepDef {background : Option Background} (h : s.Furnished background t)
    (hs : s.isStepDef = true) : t = s := by
  rw [h.others, h.defines hs]
  cases s
  rfl

theorem Furnished.concrete {background : Option Background} (h : s.Furnished background t)
    (hs : s.Concrete) : t.Concrete := by
  rw [h.others]
  exact ⟨hs.isOutline, hs.tags⟩

/-- What a scenario of a meta file stands for are step definitions of the file. -/
theorem ownedBy_of_unfold {made : List Scenario}
    (h : (s.ofMeta (some p)).unfold files dir = .ok made) (ht : t ∈ made) : t.OwnedBy p := by
  have hd : t.DefinedIn p := (definedIn_ofMeta p s).of_unfold h ht
  obtain ⟨hbackground, hfile⟩ := (standsFor_of_unfold h).kept ht
  exact ⟨hd.1, hfile, hd.2, hbackground⟩

theorem unfold_ofMeta_eq_examples {file : Option Path} {name : String}
    (h : (s.ofMeta file).unfold files dir = .error (.examplesOnScenario name)) :
    s.name = name ∧ s.isOutline = false ∧ ∃ path, .examples path ∈ s.tags := by
  obtain ⟨hname, ho, path, hpath⟩ := unfold_eq_examples h
  refine ⟨hname, ho, path, ?_⟩
  simp only [ofMeta] at hpath
  split at hpath <;> simpa using hpath

end Scenario

theorem Header.importPath?_of_withoutImports {h : Header} {t : Tag}
    (ht : t ∈ h.withoutImports.tags) : t.importPath? = none :=
  Option.isNone_iff_eq_none.mp (List.mem_filter.mp ht).2

namespace Feature

variable {files : FileSystem} {loaded : LoadedPaths} {f m n : Feature} {record : Option Record}
  {name : String} {p : Path}

/-- Nothing is left to expand or to import. -/
structure Flat (n : Feature) : Prop where
  scenarios : ∀ s ∈ n.scenarios, s.Concrete
  tags : ∀ t ∈ n.header.tags, t.importPath? = none

/-- The file as step definitions of its own and nothing else. -/
structure Defines (p : Path) (n : Feature) (defined : List Scenario) : Prop where
  file : n.file = some p
  background : n.background = none
  owned : ∀ s ∈ defined, s.OwnedBy p

/-- The scenarios of a file in normal form are those its own stand for, with a background. -/
theorem normalizeAlone_ok (h : m.normalizeAlone files = .ok n) :
    ∃ parts, List.Forall₂ (fun s made => s.unfold files m.baseDir = .ok made)
        (if m.isMeta then m.scenarios.map (·.ofMeta m.file) else m.scenarios) parts ∧
      n.header = m.header.withoutImports ∧ n.file = m.file ∧
      n.background = (if m.isMeta then none else m.background) ∧
      List.Forall₂ (Scenario.Furnished n.background) parts.flatten n.scenarios := by
  obtain ⟨parts, hparts, h⟩ := Outcome.bind_eq_ok.mp h
  cases h
  refine ⟨parts, Outcome.mapM_eq_ok.mp hparts, rfl, rfl, rfl, ?_⟩
  rw [List.forall₂_map_right_iff, List.forall₂_same]
  exact fun s _ => s.furnished_withBackground _

theorem flat_of_normalizeAlone (h : m.normalizeAlone files = .ok n) : n.Flat := by
  obtain ⟨parts, hparts, hheader, -, -, hscenarios⟩ := normalizeAlone_ok h
  refine ⟨fun t ht => ?_, fun tag htag => ?_⟩
  · obtain ⟨s, hs, hfurnished⟩ := exists_of_mem_forall₂ hscenarios ht
    obtain ⟨made, hmade, hs⟩ := List.mem_flatten.mp hs
    obtain ⟨_, -, hunfold⟩ := exists_of_mem_forall₂ hparts hmade
    exact hfurnished.concrete (Scenario.concrete_of_unfold hunfold hs)
  · rw [hheader] at htag
    exact Header.importPath?_of_withoutImports htag

theorem defines_of_normalizeAlone (hm : m.isMeta = true) (hp : m.file = some p)
    (h : m.normalizeAlone files = .ok n) : n.Defines p n.scenarios := by
  obtain ⟨parts, hparts, -, hfile, hbackground, hscenarios⟩ := normalizeAlone_ok h
  rw [if_pos hm] at hparts hbackground
  refine ⟨hfile.trans hp, hbackground, fun t ht => ?_⟩
  obtain ⟨s, hs, hfurnished⟩ := exists_of_mem_forall₂ hscenarios ht
  obtain ⟨made, hmade, hs⟩ := List.mem_flatten.mp hs
  obtain ⟨source, hsource, hunfold⟩ := exists_of_mem_forall₂ hparts hmade
  rw [hp] at hsource
  obtain ⟨s₀, -, rfl⟩ := List.mem_map.mp hsource
  have howned := Scenario.ownedBy_of_unfold hunfold hs
  rwa [hfurnished.eq_of_isStepDef howned.isStepDef]

theorem exists_file_of_isMeta (h : f.isMeta = true) : ∃ p, f.file = some p := by
  cases hf : f.file with
  | none => simp [isMeta, hf] at h
  | some p => exact ⟨p, rfl⟩

/-- The scenario refused is one of the file's own. -/
theorem normalizeAlone_eq_examples
    (h : m.normalizeAlone files = .error (.examplesOnScenario name)) :
    ∃ s ∈ m.scenarios, s.name = name ∧ s.isOutline = false ∧ ∃ path, .examples path ∈ s.tags := by
  rcases Outcome.bind_eq_error.mp h with h | ⟨_, -, h⟩
  · obtain ⟨source, hsource, h⟩ := Outcome.exists_of_mapM_eq_error h
    split at hsource
    · obtain ⟨s, hs, rfl⟩ := List.mem_map.mp hsource
      exact ⟨s, hs, Scenario.unfold_ofMeta_eq_examples h⟩
    · exact ⟨source, hsource, Scenario.unfold_eq_examples h⟩
  · cases h

theorem visits_ne_examples {chain imports : List Path} {dir : Path} {done : List Loaded}
    {r : Except SourceError (List Loaded)} (h : Visits files loaded chain dir imports done r) :
    r ≠ .error (.examplesOnScenario name) := by
  induction h with
  | nothing => simp
  | recursive => simp
  | invalid ht =>
    rintro ⟨⟩
    rcases target_eq_error ht with h | h | h <;> cases h
  | unreadable _ _ hg =>
    rintro ⟨⟩
    rcases load_eq_error hg with h | h <;> cases h
  | known _ _ _ _ _ ih => exact ih
  | failed _ _ _ _ ih => exact fun hr => ih (by cases hr; rfl)
  | visited _ _ _ _ _ _ ih => exact ih

theorem resolve_ne_examples : Import.resolve files loaded f ≠ .error (.examplesOnScenario name) := by
  intro h
  obtain ⟨r, hv, hr⟩ := visits_resolve files loaded f
  rw [hr] at h
  cases r with
  | error e => cases h; exact visits_ne_examples hv rfl
  | ok done => cases h

/-- What is resolved was reached by imports and read from the file reached. -/
theorem reached_of_mem_resolve {ms : List Feature} (h : Import.resolve files loaded f = .ok ms)
    (hm : m ∈ ms) : ∃ p, Reaches files loaded f p ∧ Feature.load files p = .ok m := by
  obtain ⟨new, rfl, ha, hreach⟩ := resolve_adds h
  obtain ⟨l, hl, rfl⟩ := List.mem_map.mp hm
  obtain ⟨_, -, hready⟩ := ha.ordered.ready_of_mem hl
  exact ⟨l.path, hreach l hl, hready.read⟩

/-- What the normal form of a feature consists of. -/
structure NormalForm (files : FileSystem) (loaded : LoadedPaths) (f : Feature)
    (record : Option Record) (n : Feature) : Prop where
  flat : ∀ g ∈ n :: n.metas, g.Flat
  /-- Behind the scenario that binds the record, which has no background, stands what the scenarios
  become, or in a meta file what the file defines. -/
  scenarios : ∃ rest, n.scenarios = record.toList.map Record.binder ++ rest ∧
    (∀ b ∈ record.toList.map Record.binder, b.background = none) ∧
    (f.isMeta = false → ∃ parts,
      List.Forall₂ (Scenario.StandsFor files f.baseDir) f.scenarios parts ∧
      List.Forall₂ (Scenario.Furnished f.background) parts.flatten rest) ∧
    (f.isMeta = true → ∃ p, f.file = some p ∧ n.Defines p rest)
  /-- Each meta file was reached by imports and stands there as what it defines. -/
  metas : ∀ m ∈ n.metas, ∃ p g, Reaches files loaded f p ∧ Feature.load files p = .ok g ∧
    g.normalizeAlone files = .ok m ∧ (m.isMeta = true → m.Defines p m.scenarios) ∧
    (files.LinkFree → m.isMeta = true)

theorem normalForm_of_normalize (h : f.normalize files loaded record = .ok n) :
    NormalForm files loaded f record n := by
  obtain ⟨ms, body, hms, hmetas, hbody, hn⟩ := normalize_ok h
  obtain ⟨parts, hparts, hheader, hfile, hbackground, hscenarios⟩ := normalizeAlone_ok hbody
  have hbodyFlat := flat_of_normalizeAlone hbody
  have hns : n.scenarios = record.toList.map Record.binder ++ body.scenarios := by rw [hn]
  have hbinder : ∀ b ∈ record.toList.map Record.binder, b.background = none ∧ b.Concrete := by
    intro b hb
    obtain ⟨r, -, rfl⟩ := List.mem_map.mp hb
    exact ⟨rfl, rfl, by simp [Record.binder, Tag.examplesPath?]⟩
  refine ⟨?_, ⟨body.scenarios, hns, fun b hb => (hbinder b hb).1, fun hm => ?_, fun hm => ?_⟩, ?_⟩
  · rw [List.forall_mem_cons]
    refine ⟨⟨fun s hs => ?_, fun t ht => hbodyFlat.tags t (by rwa [hn] at ht)⟩, fun m hm => ?_⟩
    · rw [hns, List.mem_append] at hs
      exact hs.elim (fun hs => (hbinder s hs).2) (hbodyFlat.scenarios s)
    · obtain ⟨g, -, hg⟩ := exists_of_mem_forall₂ hmetas hm
      exact flat_of_normalizeAlone hg
  · rw [hm, if_neg Bool.false_ne_true] at hparts hbackground
    rw [hbackground] at hscenarios
    exact ⟨parts, hparts.imp fun _ _ => Scenario.standsFor_of_unfold, hscenarios⟩
  · obtain ⟨p, hp⟩ := exists_file_of_isMeta hm
    obtain ⟨hbfile, hbback, howned⟩ := defines_of_normalizeAlone hm hp hbody
    exact ⟨p, hp, by rw [hn]; exact hbfile, by rw [hn]; exact hbback, howned⟩
  · intro m hm
    obtain ⟨g, hg, hgm⟩ := exists_of_mem_forall₂ hmetas hm
    obtain ⟨p, hp, hload⟩ := reached_of_mem_resolve hms hg
    have hgfile : g.file = some p := file_of_load hload
    have hsame : m.isMeta = g.isMeta := by rw [isMeta, isMeta, file_of_normalizeAlone hgm]
    refine ⟨p, g, hp, hload, hgm, fun hmeta => ?_, fun hlinks => ?_⟩
    · exact defines_of_normalizeAlone (hsame ▸ hmeta) hgfile hgm
    · rw [hsame, isMeta, hgfile]
      simp [extension?_of_reaches hlinks hp]

/-- The normal form has the scenarios expected of it, of which none is left to expand, and a feature
is refused for a table named by a tag only where a scenario that is no outline has such a tag, be it
one of the feature's own or of a meta file that it loads. -/
theorem normalize_gives_normal_form (files : FileSystem) (loaded : LoadedPaths) (f : Feature)
    (record : Option Record) :
    (∀ n, f.normalize files loaded record = .ok n → NormalForm files loaded f record n) ∧
    ∀ name, f.normalize files loaded record = .error (.examplesOnScenario name) →
      ∃ g, (g = f ∨ ∃ p, Reaches files loaded f p ∧ Feature.load files p = .ok g) ∧
        ∃ s ∈ g.scenarios, s.name = name ∧ s.isOutline = false ∧
          ∃ path, .examples path ∈ s.tags := by
  refine ⟨fun n => normalForm_of_normalize, fun name h => ?_⟩
  rcases Outcome.bind_eq_error.mp h with h | ⟨ms, hms, h⟩
  · exact absurd h resolve_ne_examples
  · rcases Outcome.bind_eq_error.mp h with h | ⟨_, -, h⟩
    · obtain ⟨m, hm, h⟩ := Outcome.exists_of_mapM_eq_error h
      exact ⟨m, Or.inr (reached_of_mem_resolve hms hm), normalizeAlone_eq_examples h⟩
    · rcases Outcome.bind_eq_error.mp h with h | ⟨_, -, h⟩
      · exact ⟨f, Or.inl rfl, normalizeAlone_eq_examples h⟩
      · cases h

/-- A feature with a background, an outline, a step definition and a scenario that runs as it is. -/
def tour : Feature where
  header := { name := "Tour", tags := [.imports "/more.meta", .custom "all" none] }
  background := some { steps := [{ keyword := .given, expression := "greet" }] }
  scenarios := [
    { name := "See <place>", isOutline := true, examples := [
      { name := "north", table := [{ cells := ["place"] }, { cells := ["Oslo"] }] },
      { name := "south", table := [{ cells := ["place"] }, { cells := ["Rome"] }] }] },
    { tags := [.stepDef], name := "walk" },
    { name := "Rest" }]

/-- No outline, but with the tag of one. -/
def misplaced : Feature where
  header := { name := "Misplaced" }
  scenarios := [{ name := "Rest" }, { tags := [.examples "rows.csv"], name := "Plain" }]

theorem normalize_gives_normal_form_tour :
    let tourist : Record := { file := "guests.csv", number := 1, columns := [("guest", "Ada")] }
    (∃ n, tour.normalize greetingFiles {} (some tourist) = .ok n ∧
      NormalForm greetingFiles {} tour (some tourist) n ∧
      n.scenarios.map (fun s => (s.name, s.background.isSome)) =
        [("Bind data attributes", false), ("See Oslo -- Example 1.1 north", true),
          ("See Rome -- Example 2.1 south", true), ("walk", false), ("Rest", true)] ∧
      n.metas.map (·.file) = [some "/greet.meta", some "/more.meta"]) ∧
    misplaced.normalize {} {} none = .error (.examplesOnScenario "Plain") ∧
    ∃ s ∈ misplaced.scenarios, s.name = "Plain" ∧ s.isOutline = false ∧
      ∃ path, .examples path ∈ s.tags := by
  intro tourist
  have hform : (tour.normalize greetingFiles {} (some tourist)).toOption.map (fun n =>
      (n.scenarios.map fun s => (s.name, s.background.isSome), n.metas.map (·.file))) =
      some ([("Bind data attributes", false), ("See Oslo -- Example 1.1 north", true),
          ("See Rome -- Example 2.1 south", true), ("walk", false), ("Rest", true)],
        [some "/greet.meta", some "/more.meta"]) := by
    decide +kernel
  obtain ⟨n, hn, hparts⟩ := Outcome.toOption_map_eq_some.mp hform
  obtain ⟨hnames, hmetas⟩ := Prod.mk.inj hparts
  have hrefused : misplaced.normalize {} {} none = .error (.examplesOnScenario "Plain") := rfl
  refine ⟨⟨n, hn, (normalize_gives_normal_form _ _ _ _).1 n hn, hnames, hmetas⟩, hrefused, ?_⟩
  obtain ⟨g, rfl | ⟨p, hp, -⟩, hs⟩ := (normalize_gives_normal_form _ _ _ _).2 _ hrefused
  · exact hs
  · -- Without imports nothing is reached.
    exfalso
    induction hp with
    | direct hd => exact absurd hd.choose_spec.1 List.not_mem_nil
    | onward _ _ _ _ ih => exact ih

end Feature

end Gherkin
