import Gherkin.Normal
import Gherkin.Proofs.CanonicalPaths

/-! The normal form of a meta file. Every scenario in it is a step definition that knows the file,
also one that was made from a row. -/
namespace Gherkin

namespace Scenario

variable {files : FileSystem} {dir : Path} {s t : Scenario} {ss : List Scenario}

theorem tags_of_expand (h : s.expand files dir = .ok ss) (ht : t ∈ ss) :
    t.tags = s.tags.filter fun tag => tag.examplesPath?.isNone := by
  obtain ⟨expanded, he, h⟩ := Outcome.bind_eq_ok.mp h
  cases h
  obtain ⟨e, hmem, ht⟩ := List.mem_flatMap.mp ht
  obtain ⟨tables, -, he⟩ := Outcome.bind_eq_ok.mp he
  obtain ⟨⟨e', i⟩, -, he'⟩ := Outcome.exists_of_mem_mapM he hmem
  obtain ⟨made, hmade, he'⟩ := Outcome.bind_eq_ok.mp he'
  cases he'
  unfold ofExamples at hmade
  split at hmade
  · cases hmade
    cases ht
  · obtain ⟨⟨row, j⟩, -, hrow⟩ := Outcome.exists_of_mem_mapM hmade ht
    obtain ⟨params, -, hrow⟩ := Outcome.bind_eq_ok.mp hrow
    cases hrow
    rfl

/-- A scenario made from another keeps the tags, but for those that name tables. -/
theorem mem_tags_of_unfold {tag : Tag} (h : s.unfold files dir = .ok ss) (ht : t ∈ ss)
    (htag : tag ∈ s.tags) (hnone : tag.examplesPath? = none) : tag ∈ t.tags := by
  unfold unfold at h
  split at h
  · rw [tags_of_expand h ht]
    exact List.mem_filter.mpr ⟨htag, by simp [hnone]⟩
  · split at h
    · cases h
    · cases h
      rwa [List.mem_singleton.mp ht]

/-- A step definition that comes from this meta file. -/
def DefinedIn (p : Path) (s : Scenario) : Prop :=
  s.isStepDef = true ∧ .definedIn p ∈ s.tags

theorem definedIn_ofMeta (p : Path) (s : Scenario) : (s.ofMeta (some p)).DefinedIn p := by
  refine ⟨?_, by simp [ofMeta]⟩
  unfold ofMeta
  split
  · next hs => simpa [isStepDef] using hs
  · simp [isStepDef]

theorem DefinedIn.of_unfold {p : Path} (hs : s.DefinedIn p) (h : s.unfold files dir = .ok ss)
    (ht : t ∈ ss) : t.DefinedIn p :=
  ⟨List.contains_iff_mem.mpr (mem_tags_of_unfold h ht (List.contains_iff_mem.mp hs.1) rfl),
    mem_tags_of_unfold h ht hs.2 rfl⟩

theorem withBackground_of_isStepDef (hs : s.isStepDef = true) (background : Option Background) :
    s.withBackground background = s := by
  simp [withBackground, hs]

end Scenario

namespace Feature

variable {files : FileSystem} {m n : Feature} {p : Path}

theorem file_of_normalizeAlone (h : m.normalizeAlone files = .ok n) : n.file = m.file := by
  obtain ⟨_, -, h⟩ := Outcome.bind_eq_ok.mp h
  cases h
  rfl

theorem metas_of_normalizeAlone (h : m.normalizeAlone files = .ok n) : n.metas = [] := by
  obtain ⟨_, -, h⟩ := Outcome.bind_eq_ok.mp h
  cases h
  rfl

/-- What is left of a meta file in normal form are step definitions that come from it. -/
theorem definedIn_of_normalizeAlone (hm : m.isMeta = true) (hp : m.file = some p)
    (h : m.normalizeAlone files = .ok n) : ∀ s ∈ n.scenarios, s.DefinedIn p := by
  obtain ⟨unfolded, hu, h⟩ := Outcome.bind_eq_ok.mp h
  cases h
  intro s hs
  obtain ⟨t, ht, rfl⟩ := List.mem_map.mp hs
  obtain ⟨ts, hts, ht⟩ := List.mem_flatten.mp ht
  obtain ⟨source, hsource, hunfold⟩ := Outcome.exists_of_mem_mapM hu hts
  rw [if_pos hm, hp] at hsource
  obtain ⟨s, -, rfl⟩ := List.mem_map.mp hsource
  have hd : t.DefinedIn p := (Scenario.definedIn_ofMeta p s).of_unfold hunfold ht
  rwa [Scenario.withBackground_of_isStepDef hd.1]

/-- The normal form of a feature is that of its own file, with the meta files that it needs and with
the scenario that binds a record in front. -/
theorem normalize_ok {loaded : LoadedPaths} {f normal : Feature} {record : Option Record}
    (h : f.normalize files loaded record = .ok normal) :
    ∃ ms body, Import.resolve files loaded f = .ok ms ∧
      List.Forall₂ (fun m n => m.normalizeAlone files = .ok n) ms normal.metas ∧
      f.normalizeAlone files = .ok body ∧
      normal = { body with scenarios := record.toList.map Record.binder ++ body.scenarios
                           metas := normal.metas } := by
  obtain ⟨ms, hms, h⟩ := Outcome.bind_eq_ok.mp h
  obtain ⟨ns, hns, h⟩ := Outcome.bind_eq_ok.mp h
  obtain ⟨body, hbody, h⟩ := Outcome.bind_eq_ok.mp h
  cases h
  exact ⟨ms, body, hms, Outcome.mapM_eq_ok.mp hns, hbody, rfl⟩

theorem file_of_normalize {loaded : LoadedPaths} {f normal : Feature} {record : Option Record}
    (h : f.normalize files loaded record = .ok normal) : normal.file = f.file := by
  obtain ⟨_, body, -, -, hbody, hnormal⟩ := normalize_ok h
  have hfile : normal.file = body.file := by rw [hnormal]
  exact hfile.trans (file_of_normalizeAlone hbody)

end Feature

end Gherkin
