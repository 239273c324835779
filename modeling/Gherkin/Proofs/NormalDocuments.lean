import Gherkin.Proofs.DocumentRoundTrip
import Gherkin.Proofs.NormalForm

/-! Documents of features in normal form. A normal form has tags that no document gave, made from
the paths of meta files and of data files, and a path can be written in a tag only if it can stand
between quotes. -/
namespace Gherkin

namespace Scenario

variable {files : FileSystem} {dir : Path} {s x : Scenario} {made : List Scenario} {t : Tag}
  {background : Option Background} {file : Option Path}

theorem carries_of_substitute {params : Pairs} {x : Step} (h : (x.substitute params).Carries t) :
    x.Carries t := by
  cases h with
  | body hb h => exact .body hb h

/-- What is made from a row has no tag that the outline has not. -/
theorem Carries.of_ofRow {params : Pairs} {block row : Nat} {blockName : String}
    (h : (s.ofRow params block row blockName).Carries t) : s.Carries t := by
  cases h with
  | own h => exact .own (List.mem_filter.mp h).1
  | step hx h =>
    rcases mem_allSteps.mp hx with hx | hx
    · exact .step (mem_allSteps.mpr (.inl hx)) h
    · obtain ⟨y, hy, rfl⟩ := List.mem_map.mp hx
      exact .step (mem_allSteps.mpr (.inr hy)) (carries_of_substitute h)
  | made he => cases he

theorem Carries.of_unfold (h : s.unfold files dir = .ok made) (hx : x ∈ made)
    (ht : x.Carries t) : s.Carries t := by
  have hstands := standsFor_of_unfold h
  cases ho : s.isOutline with
  | false =>
    rw [hstands.1 ho, List.mem_singleton] at hx
    rwa [← hx]
  | true =>
    obtain ⟨_, _, _, _, rfl⟩ := (hstands.2 ho).exists_row hx
    exact ht.of_ofRow

/-- In a meta file a scenario gets the tag of step definitions and that of the file. -/
theorem Carries.of_ofMeta (h : (s.ofMeta file).Carries t) :
    s.Carries t ∨ t = .stepDef ∨ ∃ p, file = some p ∧ t = .definedIn p := by
  cases h with
  | own h =>
    rcases List.mem_append.mp h with h | h
    · split at h
      · exact .inl (.own h)
      · rcases List.mem_append.mp h with h | h
        · exact .inl (.own h)
        · exact .inr (.inl (List.mem_singleton.mp h))
    · obtain ⟨p, hp, rfl⟩ := List.mem_map.mp h
      exact .inr (.inr ⟨p, Option.mem_toList.mp hp, rfl⟩)
  | step hx h => exact .inl (.step (mem_allSteps.mpr (.inr hx)) h)
  | made he hx h => exact .inl (.made he hx h)

theorem Carries.of_furnished (hf : s.Furnished background x) (h : x.Carries t) :
    s.Carries t ∨ ∃ b, background = some b ∧ ∃ y ∈ b.steps, y.Carries t := by
  have hbackground : x.background = s.background ∨ x.background = background := by
    cases hs : s.isStepDef with
    | true => exact .inl (hf.defines hs)
    | false =>
      cases hb : s.background with
      | none => exact .inr (hf.runs hs hb)
      | some b => exact .inl (hb ▸ hf.owns (by rw [hb]; rfl))
  have hothers := hf.others
  cases h with
  | own h =>
    rw [hothers] at h
    exact .inl (.own h)
  | step hx h =>
    rcases mem_allSteps.mp hx with ⟨b, hb, hx⟩ | hx
    · rcases hbackground with hs | hs
      · exact .inl (.step (mem_allSteps.mpr (.inl ⟨b, hs ▸ hb, hx⟩)) h)
      · exact .inr ⟨b, hs ▸ hb, _, hx, h⟩
    · rw [hothers] at hx
      exact .inl (.step (mem_allSteps.mpr (.inr hx)) h)
  | made he hx h =>
    rw [hothers] at he
    exact .inl (.made he hx h)

end Scenario

namespace Record

theorem body_of_mem_bindingSteps {ps : Pairs} {x : Step} (h : x ∈ bindingSteps ps) :
    x.body = none := by
  cases ps with
  | nil => cases h
  | cons p ps =>
    rcases List.mem_cons.mp h with rfl | h
    · rfl
    · obtain ⟨_, -, rfl⟩ := List.mem_map.mp h
      rfl

theorem carries_binder_iff (r : Record) {t : Tag} :
    r.binder.Carries t ↔ t = .data r.file r.number := by
  constructor
  · intro h
    cases h with
    | own h => exact List.mem_singleton.mp h
    | step hx h =>
      cases h with
      | body hb =>
        rw [body_of_mem_bindingSteps hx] at hb
        cases hb
    | made he => cases he
  · rintro rfl
    exact .own List.mem_cons_self

end Record

namespace Feature

variable {files : FileSystem} {loaded : LoadedPaths} {f m n : Feature} {t : Tag} {p : Path}
  {record : Option Record}

/-- If the feature is a meta file that defines a step, a tag can tell its path. -/
def Citable (f : Feature) : Prop :=
  f.isMeta = true → (∃ s ∈ f.scenarios, s.isStepDef = true) → ∀ p, f.file = some p → Tag.Quotable p

theorem carries_file {file : Option Path} (h : ({ f with file } : Feature).Carries t) :
    f.Carries t := by
  cases h with
  | header h => exact .header h
  | background hb hx h => exact .background hb hx h
  | scenario hs h => exact .scenario hs h
  | metas hm h => exact .metas hm h

theorem proper_of_load (h : load files p = .ok m) : ∀ t, m.Carries t → t.Proper := by
  obtain ⟨_, doc, g, -, -, hg, rfl⟩ := load_ok h
  exact fun t ht => proper_of_document (.inr ⟨doc, hg⟩) t (carries_file ht)

/-- A scenario in normal form has the tags of one that stood there, and those that a step definition
gets from its file. -/
theorem carries_of_mem_normalizeAlone {x : Scenario} (h : m.normalizeAlone files = .ok n)
    (hx : x ∈ n.scenarios) (ht : x.Carries t) :
    m.Carries t ∨ t = .stepDef ∨ ∃ p, m.isMeta = true ∧ m.file = some p ∧ t = .definedIn p := by
  obtain ⟨parts, hparts, -, -, hbackground, hscenarios⟩ := normalizeAlone_ok h
  obtain ⟨y, hy, hfurnished⟩ := exists_of_mem_forall₂ hscenarios hx
  obtain ⟨made, hmade, hy⟩ := List.mem_flatten.mp hy
  obtain ⟨source, hsource, hunfold⟩ := exists_of_mem_forall₂ hparts hmade
  rcases ht.of_furnished hfurnished with ht | ⟨b, hb, y, hy, ht⟩
  · have ht := Scenario.Carries.of_unfold hunfold hy ht
    cases hm : m.isMeta with
    | false =>
      rw [hm, if_neg Bool.false_ne_true] at hsource
      exact .inl (.scenario hsource ht)
    | true =>
      rw [if_pos hm] at hsource
      obtain ⟨s, hs, rfl⟩ := List.mem_map.mp hsource
      rcases ht.of_ofMeta with ht | ht | ⟨p, hp, ht⟩
      · exact .inl (.scenario hs ht)
      · exact .inr (.inl ht)
      · exact .inr (.inr ⟨p, rfl, hp, ht⟩)
  · rw [hbackground] at hb
    split at hb
    · cases hb
    · exact .inl (.background hb hy ht)

/-- A file in normal form has proper tags only, provided that its path can be told where it has to
be. -/
theorem proper_of_normalizeAlone_iff (hm : ∀ t, m.Carries t → t.Proper)
    (h : m.normalizeAlone files = .ok n) : (∀ t, n.Carries t → t.Proper) ↔ n.Citable := by
  obtain ⟨_, -, hheader, hfile, hbackground, -⟩ := normalizeAlone_ok h
  have hmeta : n.isMeta = m.isMeta := by rw [isMeta, isMeta, hfile]
  constructor
  · rintro hproper hn ⟨s, hs, -⟩ p hp
    have hdefined := definedIn_of_normalizeAlone (hmeta ▸ hn) (hfile ▸ hp) h s hs
    exact hproper (.definedIn p) (.scenario hs (.own hdefined.2))
  · intro hn t ht
    cases ht with
    | header ht =>
      rw [hheader] at ht
      exact hm t (.header (List.mem_filter.mp ht).1)
    | background hb hx ht =>
      rw [hbackground] at hb
      split at hb
      · cases hb
      · exact hm t (.background hb hx ht)
    | @scenario _ s _ hs ht =>
      rcases carries_of_mem_normalizeAlone h hs ht with ht | rfl | ⟨p, hp, hmp, rfl⟩
      · exact hm t ht
      · trivial
      · have hstep := (definedIn_of_normalizeAlone hp hmp h s hs).1
        exact hn (hmeta ▸ hp) ⟨s, hs, hstep⟩ p (hfile ▸ hmp)
    | metas hx =>
      rw [metas_of_normalizeAlone h] at hx
      cases hx

/-- The scenario that binds a record defines no step. -/
theorem citable_with_binder_iff {metas : List Feature} :
    ({ m with scenarios := record.toList.map Record.binder ++ m.scenarios, metas } :
      Feature).Citable ↔ m.Citable := by
  simp only [Citable, isMeta, List.mem_append, List.mem_map, or_and_right, exists_or]
  refine imp_congr_right fun _ => imp_congr_left (or_iff_right ?_)
  rintro ⟨_, ⟨r, -, rfl⟩, hr⟩
  simp [Record.binder, Scenario.isStepDef] at hr

/-- The tags are those of the record, of the feature itself and of the meta files. -/
theorem carries_with_binder_iff {metas : List Feature} (hmetas : m.metas = []) :
    ({ m with scenarios := record.toList.map Record.binder ++ m.scenarios, metas } :
      Feature).Carries t ↔
      (∃ r, record = some r ∧ t = .data r.file r.number) ∨ m.Carries t ∨
        ∃ g ∈ metas, g.Carries t := by
  constructor
  · intro h
    cases h with
    | header h => exact .inr (.inl (.header h))
    | background hb hx h => exact .inr (.inl (.background hb hx h))
    | scenario hs h =>
      rcases List.mem_append.mp hs with hs | hs
      · obtain ⟨r, hr, rfl⟩ := List.mem_map.mp hs
        exact .inl ⟨r, Option.mem_toList.mp hr, r.carries_binder_iff.mp h⟩
      · exact .inr (.inl (.scenario hs h))
    | metas hg h => exact .inr (.inr ⟨_, hg, h⟩)
  · rintro (⟨r, rfl, ht⟩ | h | ⟨g, hg, h⟩)
    · exact .scenario List.mem_cons_self (r.carries_binder_iff.mpr ht)
    · cases h with
      | header h => exact .header h
      | background hb hx h => exact .background hb hx h
      | scenario hs h => exact .scenario (List.mem_append_right _ hs) h
      | metas hg =>
        rw [hmetas] at hg
        cases hg
    · exact .metas hg h

/-- The normal form of a feature that was read, as the content of any file, is read back from its
document exactly if the paths that its tags tell can stand between quotes: that of the data file,
and that of each meta file which defines a step. -/
theorem normal_document_read_back (files : FileSystem) (loaded : LoadedPaths) (doc : Json)
    (f : Feature) (file : Option Path) (record : Option Record) (n : Feature)
    (hread : Feature.ofJson? doc = some f)
    (h : Feature.normalize files loaded { f with file } record = .ok n) :
    Feature.ofJson? n.toJson = some n ↔
      (∀ r, record = some r → Tag.Quotable r.file) ∧ ∀ m ∈ n :: n.metas, m.Citable := by
  obtain ⟨ms, body, hms, hmetas, hbody, hn⟩ := normalize_ok h
  have hfproper : ∀ t, ({ f with file } : Feature).Carries t → t.Proper := fun t ht =>
    proper_of_document (.inl ⟨doc, hread⟩) t (carries_file ht)
  have hbodyIff := proper_of_normalizeAlone_iff hfproper hbody
  have hmetasIff : ∀ m ∈ n.metas, (∀ t, m.Carries t → t.Proper) ↔ m.Citable := by
    intro m hm
    obtain ⟨g, hg, hgm⟩ := exists_of_mem_forall₂ hmetas hm
    obtain ⟨p, -, hload⟩ := reached_of_mem_resolve hms hg
    exact proper_of_normalizeAlone_iff (proper_of_load hload) hgm
  have hcitable : n.Citable ↔ body.Citable := by
    rw [hn]
    exact citable_with_binder_iff
  have hcarries : ∀ t, n.Carries t ↔ (∃ r, record = some r ∧ t = .data r.file r.number) ∨
      body.Carries t ∨ ∃ g ∈ n.metas, g.Carries t := by
    intro t
    conv_lhs => rw [hn]
    exact carries_with_binder_iff (metas_of_normalizeAlone hbody)
  rw [ofJson?_toJson_iff, List.forall_mem_cons, hcitable, ← hbodyIff]
  constructor
  · intro hproper
    refine ⟨fun r hr => ?_, fun t ht => ?_, fun m hm => ?_⟩
    · exact hproper (.data r.file r.number) ((hcarries _).mpr (.inl ⟨r, hr, rfl⟩))
    · exact hproper t ((hcarries t).mpr (.inr (.inl ht)))
    · exact (hmetasIff m hm).mp fun t ht => hproper t ((hcarries t).mpr (.inr (.inr ⟨m, hm, ht⟩)))
  · rintro ⟨hrecord, hown, hall⟩ t ht
    rcases (hcarries t).mp ht with ⟨r, hr, rfl⟩ | ht | ⟨m, hm, ht⟩
    · exact hrecord r hr
    · exact hown t ht
    · exact (hmetasIff m hm).mpr (hall m hm) t ht

/-- A meta file and a data file whose paths can stand between quotes. -/
theorem normal_document_read_back_greet :
    let f : Feature := { header := { name := "Greetings" }, scenarios := [{ name := "I greet" }] }
    let r : Record := { file := "guests.csv", number := 2, columns := [("guest", "Ada")] }
    let n : Feature :=
      { f with scenarios := [r.binder, { tags := [.stepDef, .definedIn "lib/greet.meta"]
                                         name := "I greet", metaFile := some "lib/greet.meta" }]
               file := some "lib/greet.meta" }
    Feature.ofJson? f.toJson = some f ∧
    Feature.normalize {} {} { f with file := some "lib/greet.meta" } (some r) = .ok n ∧
    Feature.ofJson? n.toJson = some n := by
  intro f r n
  have hread : Feature.ofJson? f.toJson = some f := by rfl
  have hnormal : Feature.normalize {} {} { f with file := some "lib/greet.meta" } (some r) =
      .ok n := by
    rfl
  refine ⟨hread, hnormal, (normal_document_read_back _ _ _ _ _ _ _ hread hnormal).mpr ⟨?_, ?_⟩⟩
  · rintro _ ⟨⟩
    exact ⟨by decide, by decide⟩
  · simp only [List.mem_singleton, forall_eq, n, f]
    rintro - - _ ⟨⟩
    exact ⟨by decide, by decide⟩

/-- A meta file and a data file with a quote in their paths. -/
theorem normal_document_with_quote_unread :
    let f : Feature := { header := { name := "Greetings" }, scenarios := [{ name := "I greet" }] }
    let r : Record := { file := "a\"b.csv", number := 1, columns := [] }
    Feature.ofJson? f.toJson = some f ∧
    (∃ n, Feature.normalize {} {} { f with file := some "a\"b.meta" } none = .ok n ∧
      Feature.ofJson? n.toJson = none) ∧
    ∃ n, Feature.normalize {} {} f (some r) = .ok n ∧ Feature.ofJson? n.toJson = none :=
  ⟨rfl, ⟨_, rfl, rfl⟩, _, rfl, rfl⟩

end Feature

end Gherkin
