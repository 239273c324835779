import Gherkin.Proofs.NormalForm

/-! A feature in normal form is left as it is. It has no outline, no import and no scenario that still
needs the background, so nothing is read and nothing changes when it is normalized again. -/
namespace Gherkin

open Import

namespace Scenario

variable {s t : Scenario} {background : Option Background}

theorem Concrete.unfold_eq (hs : s.Concrete) (files : FileSystem) (dir : Path) :
    s.unfold files dir = .ok [s] := by
  have htags : ¬ s.tags.any (fun t => t.examplesPath?.isSome) = true := by
    simpa using hs.tags
  rw [unfold, if_neg (by simp [hs.isOutline]), if_neg htags]

/-- Whatever got its background does not get it again. -/
theorem Furnished.withBackground_eq (h : s.Furnished background t) :
    t.withBackground background = t := by
  have hdef : t.isStepDef = s.isStepDef := by rw [h.others]; rfl
  unfold withBackground
  split
  · rfl
  · next hopen =>
    simp only [Bool.or_eq_true, not_or, Bool.not_eq_true, Option.isSome_eq_false_iff,
      Option.isNone_iff_eq_none] at hopen
    obtain ⟨hruns, hnone⟩ := hopen
    rw [hdef] at hruns
    -- a background of its own would still be there
    have hs : s.background = none := by
      cases hb : s.background with
      | none => rfl
      | some b => simp [h.owns (by simp [hb]), hb] at hnone
    rw [← h.runs hruns hs]
    cases t
    rfl

end Scenario

namespace Feature

variable {files : FileSystem} {loaded : LoadedPaths} {f m n : Feature}

/-- Nothing is left to expand or to import, and no scenario needs the background. -/
structure Settled (n : Feature) : Prop where
  flat : n.Flat
  backgrounds : ∀ s ∈ n.scenarios, s.withBackground n.background = s

theorem settled_of_normalizeAlone (h : m.normalizeAlone files = .ok n) : n.Settled := by
  obtain ⟨_, -, -, -, -, hfurnished⟩ := normalizeAlone_ok h
  refine ⟨flat_of_normalizeAlone h, fun t ht => ?_⟩
  obtain ⟨s, -, hs⟩ := exists_of_mem_forall₂ hfurnished ht
  exact hs.withBackground_eq

theorem Flat.imports_eq (h : n.Flat) : n.imports = [] :=
  List.filterMap_eq_nil_iff.mpr h.tags

theorem Flat.withoutImports_eq (h : n.Flat) : n.header.withoutImports = n.header := by
  have htags : n.header.tags.filter (fun t => t.importPath?.isNone) = n.header.tags :=
    List.filter_eq_self.mpr fun t ht => by simp [h.tags t ht]
  rw [Header.withoutImports, htags]

theorem Settled.normalizeAlone_eq (h : n.Settled) (hn : n.isMeta = false) (files : FileSystem) :
    n.normalizeAlone files = .ok { n with metas := [] } := by
  have hunfold : n.scenarios.mapM (·.unfold files n.baseDir) =
      .ok (n.scenarios.map fun s => [s]) := by
    rw [Outcome.mapM_eq_ok, List.forall₂_map_right_iff, List.forall₂_same]
    exact fun s hs => (h.flat.scenarios s hs).unfold_eq files _
  have hscenarios : (n.scenarios.map fun s => [s]).flatten.map (·.withBackground n.background) =
      n.scenarios := by
    rw [← List.flatMap_def, List.flatMap_singleton']
    exact (List.map_congr_left h.backgrounds).trans (List.map_id _)
  simp only [normalizeAlone, hn, Bool.false_eq_true, if_false, hunfold, Outcome.ok_bind,
    hscenarios, h.flat.withoutImports_eq]
  rfl

/-- A feature that is no meta file is its own normal form exactly if it is settled. -/
theorem normalizeAlone_eq_self_iff (hn : n.isMeta = false) :
    n.normalizeAlone files = .ok n ↔ n.Settled ∧ n.metas = [] := by
  constructor
  · intro h
    exact ⟨settled_of_normalizeAlone h, metas_of_normalizeAlone h⟩
  · rintro ⟨h, hmetas⟩
    rw [h.normalizeAlone_eq hn, ← hmetas]
    cases n
    rfl

/-- The normal form of a feature is normal already. Normalized again, with whatever files there are
and whatever is loaded by then, it stays as it is but for its meta files, which are not needed again,
and the scenario in front that binds a record. -/
theorem normalize_idempotent (hf : f.isMeta = false) (h : f.normalize files loaded none = .ok n)
    (files' : FileSystem) (loaded' : LoadedPaths) (record : Option Record) :
    n.normalize files' loaded' record =
      .ok { n with scenarios := record.toList.map Record.binder ++ n.scenarios, metas := [] } := by
  have hn : n.isMeta = false := by rw [isMeta, file_of_normalize h, ← isMeta, hf]
  obtain ⟨_, body, -, -, hbody, hnormal⟩ := normalize_ok h
  have hbodySettled := settled_of_normalizeAlone hbody
  have hsettled : n.Settled := by
    rw [hnormal]
    exact ⟨⟨hbodySettled.flat.scenarios, hbodySettled.flat.tags⟩, hbodySettled.backgrounds⟩
  rw [normalize, resolve_of_no_imports hsettled.flat.imports_eq, hsettled.normalizeAlone_eq hn]
  rfl

/-- The files are gone when the tour is normalized again. -/
theorem normalize_idempotent_tour :
    let tourist : Record := { file := "guests.csv", number := 1, columns := [("guest", "Ada")] }
    ∃ n, tour.normalize greetingFiles {} none = .ok n ∧ n.metas.length = 2 ∧
      n.scenarios.map (fun s => (s.name, s.background.isSome)) =
        [("See Oslo -- Example 1.1 north", true), ("See Rome -- Example 2.1 south", true),
          ("walk", false), ("Rest", true)] ∧
      n.normalize {} {} (some tourist) =
        .ok { n with scenarios := tourist.binder :: n.scenarios, metas := [] } := by
  intro tourist
  have hform : (tour.normalize greetingFiles {} none).toOption.map (fun n =>
      (n.metas.length, n.scenarios.map fun s => (s.name, s.background.isSome))) =
      some (2, [("See Oslo -- Example 1.1 north", true), ("See Rome -- Example 2.1 south", true),
        ("walk", false), ("Rest", true)]) := by
    decide +kernel
  obtain ⟨n, hn, hparts⟩ := Outcome.toOption_map_eq_some.mp hform
  obtain ⟨hmetas, hscenarios⟩ := Prod.mk.inj hparts
  exact ⟨n, hn, hmetas, hscenarios, normalize_idempotent rfl hn {} {} (some tourist)⟩

end Feature

end Gherkin
