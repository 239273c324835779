import Gherkin.Proofs.DocumentFields
import Gherkin.Proofs.TagText

/-! Documents of features. A feature is read back from the document that is written for it exactly
if each of its tags, at whatever depth, can be read back. -/
namespace Gherkin

open Json

mutual

/-- The tag stands in the scenario that was evaluated for the step. -/
inductive Step.Carries : Step → Tag → Prop where
  | body {s : Step} {b : Scenario} {t : Tag} (hb : s.body = some b) (h : Scenario.Carries b t) :
      Step.Carries s t

/-- The tag stands on the scenario, in one of its steps, or in a scenario made from its tables. -/
inductive Scenario.Carries : Scenario → Tag → Prop where
  | own {s : Scenario} {t : Tag} (h : t ∈ s.tags) : Scenario.Carries s t
  | step {s : Scenario} {x : Step} {t : Tag} (hx : x ∈ s.allSteps) (h : Step.Carries x t) :
      Scenario.Carries s t
  | made {s x : Scenario} {e : Examples} {t : Tag} (he : e ∈ s.examples) (hx : x ∈ e.scenarios)
      (h : Scenario.Carries x t) : Scenario.Carries s t

end

/-- The tag stands somewhere in the feature. -/
inductive Feature.Carries : Feature → Tag → Prop where
  | header {f : Feature} {t : Tag} (h : t ∈ f.header.tags) : Feature.Carries f t
  | background {f : Feature} {b : Background} {x : Step} {t : Tag} (hb : f.background = some b)
      (hx : x ∈ b.steps) (h : x.Carries t) : Feature.Carries f t
  | scenario {f : Feature} {s : Scenario} {t : Tag} (hs : s ∈ f.scenarios) (h : s.Carries t) :
      Feature.Carries f t
  | metas {f m : Feature} {t : Tag} (hm : m ∈ f.metas) (h : Feature.Carries m t) :
      Feature.Carries f t

theorem Scenario.mem_allSteps {s : Scenario} {x : Step} :
    x ∈ s.allSteps ↔ (∃ b, s.background = some b ∧ x ∈ b.steps) ∨ x ∈ s.steps := by
  rw [allSteps, backgroundSteps, List.mem_append]
  cases s.background <;> simp

/-- Steps by the scenarios evaluated for them, scenarios by their steps and by the scenarios made
from them. -/
theorem Scenario.induction {P : Step → Prop} {Q : Scenario → Prop}
    (hstep : ∀ s : Step, (∀ b, s.body = some b → Q b) → P s)
    (hscenario : ∀ s : Scenario, (∀ x ∈ s.allSteps, P x) →
      (∀ e ∈ s.examples, ∀ x ∈ e.scenarios, Q x) → Q s) :
    (∀ s, P s) ∧ ∀ s, Q s := by
  have hparts : ∀ s : Scenario, (∀ b, s.background = some b → ∀ x ∈ b.steps, P x) →
      (∀ x ∈ s.steps, P x) → (∀ e ∈ s.examples, ∀ x ∈ e.scenarios, Q x) → Q s := by
    intro s hbackground hsteps hexamples
    refine hscenario s (fun x hx => ?_) hexamples
    rcases mem_allSteps.mp hx with ⟨b, hb, hx⟩ | hx
    · exact hbackground b hb x hx
    · exact hsteps x hx
  -- The recursor wants to know what holds of each kind of node and of each list or option of them.
  have hall : ∀ s, Q s :=
    @Scenario.rec P (fun b => ∀ x ∈ b.steps, P x) (fun e => ∀ x ∈ e.scenarios, Q x) Q
      (fun o => ∀ b, o = some b → Q b) (fun ss => ∀ x ∈ ss, P x) (fun ss => ∀ x ∈ ss, Q x)
      (fun o => ∀ b, o = some b → ∀ x ∈ b.steps, P x)
      (fun es => ∀ e ∈ es, ∀ x ∈ e.scenarios, Q x)
      (fun _ _ _ _ _ _ _ hbody => hstep _ hbody)
      (fun _ _ _ hsteps => hsteps)
      (fun _ _ _ _ hscenarios => hscenarios)
      (fun _ _ _ _ _ _ _ _ _ hbackground hsteps hexamples =>
        hparts _ hbackground hsteps hexamples)
      (by simp) (by simp)
      (by simp) (fun _ _ hs hss => List.forall_mem_cons.mpr ⟨hs, hss⟩)
      (by simp) (fun _ _ hs hss => List.forall_mem_cons.mpr ⟨hs, hss⟩)
      (by simp) (by simp)
      (by simp) (fun _ _ he hes => List.forall_mem_cons.mpr ⟨he, hes⟩)
  exact ⟨fun s => hstep s fun b _ => hall b, hall⟩

theorem Feature.induction {P : Feature → Prop} (h : ∀ f : Feature, (∀ m ∈ f.metas, P m) → P f) :
    ∀ f, P f :=
  @Feature.rec P (fun ms => ∀ m ∈ ms, P m) (fun _ _ _ _ _ hmetas => h _ hmetas)
    (by simp) (fun _ _ hm hms => List.forall_mem_cons.mpr ⟨hm, hms⟩)

theorem Tag.proper_of_ofJson? {t : Tag} {v : Json} (h : Tag.ofJson? v = some t) : t.Proper := by
  obtain ⟨text, rfl, htext⟩ := Tag.ofJson?_eq_some.mp h
  exact Tag.proper_of_parse htext

theorem Tag.ofJson?_toJson {t : Tag} (h : t.Proper) : Tag.ofJson? t.toJson = some t :=
  Tag.ofJson?_eq_some.mpr ⟨_, rfl, Tag.parse_render h⟩

-- What was read consists of what was read.

theorem Step.read_body {s : Step} {v : Json} (h : Step.ofRecord? v = some s) :
    ∀ b, s.body = some b → ∃ w, Scenario.ofRecord? w = some b := by
  cases v with
  | obj fields =>
    simp only [Step.ofRecord?, bind, Option.bind_eq_some_iff, Option.some.injEq,
      Scenario.bodyIn?_eq] at h
    obtain ⟨_, -, _, -, _, -, _, -, _, -, _, -, _, hbody, rfl⟩ := h
    exact exists_of_orDefault_optional hbody
  | _ => simp [Step.ofRecord?] at h

theorem Background.read_steps {b : Background} {v : Json} (h : Background.ofRecord? v = some b) :
    ∀ x ∈ b.steps, ∃ w, Step.ofRecord? w = some x := by
  cases v with
  | obj fields =>
    simp only [Background.ofRecord?, bind, Option.bind_eq_some_iff, Option.some.injEq,
      Step.listIn?_eq] at h
    obtain ⟨_, -, _, -, _, hsteps, rfl⟩ := h
    exact exists_of_orDefault_list hsteps
  | _ => simp [Background.ofRecord?] at h

theorem Examples.read_scenarios {e : Examples} {v : Json} (h : Examples.ofRecord? v = some e) :
    ∀ x ∈ e.scenarios, ∃ w, Scenario.ofRecord? w = some x := by
  cases v with
  | obj fields =>
    simp only [Examples.ofRecord?, bind, Option.bind_eq_some_iff, Option.some.injEq,
      Scenario.listIn?_eq] at h
    obtain ⟨_, -, _, -, _, -, _, hscenarios, rfl⟩ := h
    exact exists_of_orDefault_list hscenarios
  | _ => simp [Examples.ofRecord?] at h

theorem Scenario.read_parts {s : Scenario} {v : Json} (h : Scenario.ofRecord? v = some s) :
    (∀ t ∈ s.tags, t.Proper) ∧ (∀ x ∈ s.allSteps, ∃ w, Step.ofRecord? w = some x) ∧
    ∀ e ∈ s.examples, ∀ x ∈ e.scenarios, ∃ w, Scenario.ofRecord? w = some x := by
  cases v with
  | obj fields =>
    simp only [Scenario.ofRecord?, bind, Option.bind_eq_some_iff, Option.some.injEq,
      Background.in?_eq, Step.listIn?_eq, Examples.listIn?_eq] at h
    obtain ⟨_, htags, _, -, _, -, background, hbackground, _, hsteps, _, -, _, hexamples, _, -, _,
      -, rfl⟩ := h
    refine ⟨fun t ht => ?_, fun x hx => ?_, fun e he => ?_⟩
    · obtain ⟨w, hw⟩ := exists_of_orDefault_list htags t ht
      exact Tag.proper_of_ofJson? hw
    · rcases Scenario.mem_allSteps.mp hx with ⟨b, hb, hx⟩ | hx
      · obtain ⟨w, hw⟩ := exists_of_orDefault_optional hbackground b hb
        exact Background.read_steps hw x hx
      · exact exists_of_orDefault_list hsteps x hx
    · obtain ⟨w, hw⟩ := exists_of_orDefault_list hexamples e he
      exact Examples.read_scenarios hw
  | _ => simp [Scenario.ofRecord?] at h

theorem Header.proper_of_ofJson? {h : Header} {v : Json} (hread : Header.ofJson? v = some h) :
    ∀ t ∈ h.tags, t.Proper := by
  simp only [Header.ofJson?, bind, Option.bind_eq_some_iff, Option.some.injEq] at hread
  obtain ⟨_, -, _, -, _, -, _, htags, rfl⟩ := hread
  intro t ht
  obtain ⟨w, hw⟩ := exists_of_orDefault_list htags t ht
  exact Tag.proper_of_ofJson? hw

theorem Feature.read_parts {f : Feature} {v : Json} (h : Feature.ofRecord? v = some f) :
    (∀ t ∈ f.header.tags, t.Proper) ∧
    (∀ b, f.background = some b → ∀ x ∈ b.steps, ∃ w, Step.ofRecord? w = some x) ∧
    (∀ s ∈ f.scenarios, ∃ w, Scenario.ofRecord? w = some s) ∧
    ∀ m ∈ f.metas, ∃ w, Feature.ofRecord? w = some m := by
  cases v with
  | obj fields =>
    simp only [Feature.ofRecord?, bind, Option.bind_eq_some_iff, Option.some.injEq,
      Background.in?_eq, Scenario.listIn?_eq, Feature.metasIn?_eq] at h
    obtain ⟨_, hheader, _, hbackground, _, hscenarios, _, -, _, hmetas, rfl⟩ := h
    obtain ⟨_, -, hheader⟩ := Option.bind_eq_some_iff.mp hheader
    refine ⟨Header.proper_of_ofJson? hheader, fun b hb => ?_, exists_of_orDefault_list hscenarios,
      exists_of_orDefault_list hmetas⟩
    obtain ⟨w, hw⟩ := exists_of_orDefault_optional hbackground b hb
    exact Background.read_steps hw
  | _ => simp [Feature.ofRecord?] at h

theorem Scenario.proper_of_read :
    (∀ (s : Step) (v : Json), Step.ofRecord? v = some s → ∀ t, s.Carries t → t.Proper) ∧
    ∀ (s : Scenario) (v : Json), Scenario.ofRecord? v = some s → ∀ t, s.Carries t → t.Proper := by
  refine Scenario.induction (fun s hbody v h t ht => ?_) fun s hsteps hmade v h t ht => ?_
  · cases ht with
    | body hb ht =>
      obtain ⟨w, hw⟩ := Step.read_body h _ hb
      exact hbody _ hb w hw t ht
  · obtain ⟨htags, hreadSteps, hreadMade⟩ := Scenario.read_parts h
    cases ht with
    | own ht => exact htags t ht
    | step hx ht =>
      obtain ⟨w, hw⟩ := hreadSteps _ hx
      exact hsteps _ hx w hw t ht
    | made he hx ht =>
      obtain ⟨w, hw⟩ := hreadMade _ he _ hx
      exact hmade _ he _ hx w hw t ht

/-- Each tag of a feature that was read was read from a text. -/
theorem Feature.proper_of_read (f : Feature) :
    ∀ v, Feature.ofRecord? v = some f → ∀ t, f.Carries t → t.Proper := by
  induction f using Feature.induction with
  | h f ih =>
    intro v h t ht
    obtain ⟨hheader, hbackground, hscenarios, hmetas⟩ := Feature.read_parts h
    cases ht with
    | header ht => exact hheader t ht
    | background hb hx ht =>
      obtain ⟨w, hw⟩ := hbackground _ hb _ hx
      exact Scenario.proper_of_read.1 _ w hw t ht
    | scenario hs ht =>
      obtain ⟨w, hw⟩ := hscenarios _ hs
      exact Scenario.proper_of_read.2 _ w hw t ht
    | metas hm ht =>
      obtain ⟨w, hw⟩ := hmetas _ hm
      exact ih _ hm w hw t ht

-- What is written is read back if its parts are.

theorem Step.toJson_ne_null (s : Step) : s.toJson ≠ null := by
  cases s
  simp [Step.toJson]

theorem Background.toJson_ne_null (b : Background) : b.toJson ≠ null := by
  cases b
  simp [Background.toJson]

theorem Scenario.toJson_ne_null (s : Scenario) : s.toJson ≠ null := by
  cases s
  simp [Scenario.toJson]

theorem Step.ofRecord?_toJson {s : Step}
    (h : ∀ b, s.body = some b → Scenario.ofRecord? b.toJson = some b) :
    Step.ofRecord? s.toJson = some s := by
  obtain ⟨keyword, expression, pos, table, status, attachments, body⟩ := s
  rw [Step.toJson, Step.ofRecord?, Scenario.bodyIn?_eq, Scenario.bodyToFields_eq]
  generalize hfields : (_ ++ fieldIf body.isSome _ _) = fields
  have hkeyword : need fields "keyword" Keyword.ofJson? = some keyword :=
    need_of_lookup (v := str keyword.render) (by simp [← hfields]) (Keyword.ofName?_render keyword)
  have hexpression : need fields "expression" str? = some expression :=
    need_of_lookup (v := str expression) (by simp [← hfields]) rfl
  have hpos : orDefault fields "pos" {} Position.ofJson? = some pos :=
    orDefault_of_lookup (v := pos.toJson) (by simp [← hfields]) pos.ofJson?_toJson
  have htable : orDefault fields "table" [] (list? strings?) = some table :=
    orDefault_list (by simp [← hfields, List.lookup_append])
      fun cells _ => strings?_strings cells
  have hstatus : orDefault fields "status" .pending Status.ofJson? = some status :=
    orDefault_of_lookup (v := status.toJson) (by simp [← hfields, List.lookup_append])
      status.ofJson?_toJson
  have hattachments : orDefault fields "attachments" [] (list? Attachment.ofJson?) =
      some attachments :=
    orDefault_list (by simp [← hfields, List.lookup_append])
      fun a _ => a.ofJson?_toJson
  have hbody : orDefault fields "stepdef" none (optional? Scenario.ofRecord?) = some body :=
    orDefault_optional (by simp [← hfields, List.lookup_append]) h Scenario.toJson_ne_null
  simp only [hkeyword, hexpression, hpos, htable, hstatus, hattachments, hbody, bind,
    Option.bind_some]

theorem Background.ofRecord?_toJson {b : Background}
    (h : ∀ x ∈ b.steps, Step.ofRecord? x.toJson = some x) :
    Background.ofRecord? b.toJson = some b := by
  obtain ⟨name, description, steps⟩ := b
  simp [Background.toJson, Background.ofRecord?, Step.listIn?_eq, Step.listToJson_eq, orDefault,
    list?_map h]

theorem Examples.ofRecord?_toJson {e : Examples}
    (h : ∀ x ∈ e.scenarios, Scenario.ofRecord? x.toJson = some x) :
    Examples.ofRecord? e.toJson = some e := by
  obtain ⟨name, description, table, scenarios⟩ := e
  rw [Examples.toJson, Examples.ofRecord?, Scenario.listIn?_eq, Scenario.listToJson_eq]
  generalize hfields : (_ ++ fieldIf (!scenarios.isEmpty) _ _) = fields
  have hname : orDefault fields "name" "" str? = some name :=
    orDefault_of_lookup (v := str name) (by simp [← hfields]) rfl
  have hdescription : orDefault fields "description" [] strings? = some description :=
    orDefault_of_lookup (v := strings description) (by simp [← hfields])
      (strings?_strings description)
  have htable : orDefault fields "table" [] (list? Row.ofJson?) = some table :=
    orDefault_of_lookup (v := arr (table.map Row.toJson)) (by simp [← hfields])
      (list?_map fun r _ => r.ofJson?_toJson)
  have hscenarios : orDefault fields "scenarios" [] (list? Scenario.ofRecord?) = some scenarios :=
    orDefault_list (by simp [← hfields]) h
  simp only [hname, hdescription, htable, hscenarios, bind, Option.bind_some]

theorem Scenario.ofRecord?_toJson {s : Scenario} (htags : ∀ t ∈ s.tags, t.Proper)
    (hsteps : ∀ x ∈ s.allSteps, Step.ofRecord? x.toJson = some x)
    (hmade : ∀ e ∈ s.examples, ∀ x ∈ e.scenarios, Scenario.ofRecord? x.toJson = some x) :
    Scenario.ofRecord? s.toJson = some s := by
  obtain ⟨tags, name, description, background, steps, isOutline, examples, metaFile, pos⟩ := s
  have hbackground : ∀ b, background = some b → Background.ofRecord? b.toJson = some b := by
    rintro b rfl
    exact Background.ofRecord?_toJson fun x hx =>
      hsteps x (Scenario.mem_allSteps.mpr (.inl ⟨b, rfl, hx⟩))
  rw [Scenario.toJson, Scenario.ofRecord?, Background.in?_eq, Step.listIn?_eq, Examples.listIn?_eq,
    Background.toFields_eq, Step.listToJson_eq, Examples.listToJson_eq]
  generalize hfields : (_ ++ [("pos", pos.toJson)]) = fields
  have htags : orDefault fields "tags" [] (list? Tag.ofJson?) = some tags :=
    orDefault_of_lookup (v := arr (tags.map Tag.toJson)) (by simp [← hfields])
      (list?_map fun t ht => Tag.ofJson?_toJson (htags t ht))
  have hname : need fields "name" str? = some name :=
    need_of_lookup (v := str name) (by simp [← hfields]) rfl
  have hdescription : orDefault fields "description" [] strings? = some description :=
    orDefault_of_lookup (v := strings description) (by simp [← hfields])
      (strings?_strings description)
  have hbackground : orDefault fields "background" none (optional? Background.ofRecord?) =
      some background :=
    orDefault_optional (by simp [← hfields, List.lookup_append]) hbackground
      Background.toJson_ne_null
  have hsteps : orDefault fields "steps" [] (list? Step.ofRecord?) = some steps :=
    orDefault_of_lookup (v := arr (steps.map Step.toJson))
      (by simp [← hfields, List.lookup_append])
      (list?_map fun x hx => hsteps x (Scenario.mem_allSteps.mpr (.inr hx)))
  have hisOutline : orDefault fields "is_outline" false bool? = some isOutline :=
    orDefault_of_lookup (v := bool isOutline) (by simp [← hfields, List.lookup_append]) rfl
  have hexamples : orDefault fields "examples" [] (list? Examples.ofRecord?) = some examples :=
    orDefault_list (by simp [← hfields, List.lookup_append])
      fun e he => Examples.ofRecord?_toJson (hmade e he)
  have hmetaFile : orDefault fields "meta_file" none (optional? str?) = some metaFile :=
    orDefault_optional (by simp [← hfields, List.lookup_append]) (fun p _ => str?_str p)
      (by simp)
  have hpos : orDefault fields "pos" {} Position.ofJson? = some pos :=
    orDefault_of_lookup (v := pos.toJson) (by simp [← hfields, List.lookup_append])
      pos.ofJson?_toJson
  simp only [htags, hname, hdescription, hbackground, hsteps, hisOutline, hexamples, hmetaFile,
    hpos, bind, Option.bind_some]

theorem Feature.ofRecord?_toJson {f : Feature} (htags : ∀ t ∈ f.header.tags, t.Proper)
    (hbackground : ∀ b, f.background = some b → ∀ x ∈ b.steps, Step.ofRecord? x.toJson = some x)
    (hscenarios : ∀ s ∈ f.scenarios, Scenario.ofRecord? s.toJson = some s)
    (hmetas : ∀ m ∈ f.metas, Feature.ofRecord? m.toJson = some m) :
    Feature.ofRecord? f.toJson = some f := by
  obtain ⟨header, background, scenarios, file, metas⟩ := f
  rw [Feature.toJson, Feature.ofRecord?, Background.in?_eq, Scenario.listIn?_eq,
    Feature.metasIn?_eq, Background.toFields_eq, Scenario.listToJson_eq, Feature.listToJson_eq]
  generalize hfields : (_ ++ fieldIf (!metas.isEmpty) _ _) = fields
  have hheader : need fields "feature" Header.ofJson? = some header :=
    need_of_lookup (v := header.toJson) (by simp [← hfields])
      (Header.ofJson?_toJson fun t ht => Tag.ofJson?_toJson (htags t ht))
  have hbackground : orDefault fields "background" none (optional? Background.ofRecord?) =
      some background :=
    orDefault_optional (by simp [← hfields, List.lookup_append])
      (fun b hb => Background.ofRecord?_toJson (hbackground b hb)) Background.toJson_ne_null
  have hscenarios : orDefault fields "scenarios" [] (list? Scenario.ofRecord?) = some scenarios :=
    orDefault_of_lookup (v := arr (scenarios.map Scenario.toJson))
      (by simp [← hfields, List.lookup_append]) (list?_map hscenarios)
  have hfile : orDefault fields "file" none (optional? str?) = some file :=
    orDefault_optional (by simp [← hfields, List.lookup_append]) (fun p _ => str?_str p)
      (by simp)
  have hmetas : orDefault fields "metas" [] (list? Feature.ofRecord?) = some metas :=
    orDefault_list (by simp [← hfields, List.lookup_append]) hmetas
  simp only [hheader, hbackground, hscenarios, hfile, hmetas, bind, Option.bind_some]

-- What is written has its records as objects already, so that reading need not rearrange it.

theorem Step.keyed_toJson {s : Step}
    (h : ∀ b, s.body = some b → keyed (.record .scenario) b.toJson = b.toJson) :
    keyed (.record .step) s.toJson = s.toJson := by
  obtain ⟨keyword, expression, pos, table, status, attachments, body⟩ := s
  have htable := keyed_list fun cells (_ : cells ∈ table) => keyed_strings cells
  have hattachments := keyed_list fun a (_ : a ∈ attachments) => a.keyed_toJson
  rw [Step.toJson, Scenario.bodyToFields_eq]
  exact keyed_record (by
    simp [or_imp, forall_and, RecordKind.fields, Position.keyed_toJson, htable, hattachments,
      keyed_opt h])

theorem Background.keyed_toJson {b : Background}
    (h : ∀ x ∈ b.steps, keyed (.record .step) x.toJson = x.toJson) :
    keyed (.record .background) b.toJson = b.toJson := by
  obtain ⟨name, description, steps⟩ := b
  rw [Background.toJson, Step.listToJson_eq]
  exact keyed_record (by simp [RecordKind.fields, keyed_list h])

theorem Examples.keyed_toJson {e : Examples}
    (h : ∀ x ∈ e.scenarios, keyed (.record .scenario) x.toJson = x.toJson) :
    keyed (.record .examples) e.toJson = e.toJson := by
  obtain ⟨name, description, table, scenarios⟩ := e
  have htable := keyed_list fun r (_ : r ∈ table) => r.keyed_toJson
  rw [Examples.toJson, Scenario.listToJson_eq]
  exact keyed_record (by simp [or_imp, forall_and, RecordKind.fields, htable, keyed_list h])

theorem Scenario.keyed_toJson {s : Scenario}
    (hsteps : ∀ x ∈ s.allSteps, keyed (.record .step) x.toJson = x.toJson)
    (hmade : ∀ e ∈ s.examples, ∀ x ∈ e.scenarios, keyed (.record .scenario) x.toJson = x.toJson) :
    keyed (.record .scenario) s.toJson = s.toJson := by
  obtain ⟨tags, name, description, background, steps, isOutline, examples, metaFile, pos⟩ := s
  have hbackground : ∀ b, background = some b →
      keyed (.record .background) b.toJson = b.toJson := by
    rintro b rfl
    exact Background.keyed_toJson fun x hx =>
      hsteps x (Scenario.mem_allSteps.mpr (.inl ⟨b, rfl, hx⟩))
  have hsteps := keyed_list fun x hx => hsteps x (Scenario.mem_allSteps.mpr (.inr hx))
  have hexamples := keyed_list fun e he => Examples.keyed_toJson (hmade e he)
  have hmetaFile : keyed .text (opt str metaFile) = opt str metaFile :=
    keyed_opt fun p _ => keyed_str .text p
  rw [Scenario.toJson, Background.toFields_eq, Step.listToJson_eq, Examples.listToJson_eq]
  exact keyed_record (by
    simp [or_imp, forall_and, RecordKind.fields, Tag.keyed_list_toJson, keyed_opt hbackground,
      hsteps, hexamples, hmetaFile, Position.keyed_toJson])

theorem Scenario.keyed_toJson_all :
    (∀ s : Step, keyed (.record .step) s.toJson = s.toJson) ∧
    ∀ s : Scenario, keyed (.record .scenario) s.toJson = s.toJson :=
  Scenario.induction (fun _ hbody => Step.keyed_toJson hbody)
    fun _ hsteps hmade => Scenario.keyed_toJson hsteps hmade

theorem Feature.keyed_toJson (f : Feature) : keyed (.record .feature) f.toJson = f.toJson := by
  induction f using Feature.induction with
  | h f ih =>
    obtain ⟨header, background, scenarios, file, metas⟩ := f
    have hbackground : ∀ b, background = some b →
        keyed (.record .background) b.toJson = b.toJson :=
      fun b _ => Background.keyed_toJson fun x _ => Scenario.keyed_toJson_all.1 x
    have hscenarios := keyed_list fun s (_ : s ∈ scenarios) => Scenario.keyed_toJson_all.2 s
    have hfile : keyed .text (opt str file) = opt str file :=
      keyed_opt fun p _ => keyed_str .text p
    rw [Feature.toJson, Background.toFields_eq, Scenario.listToJson_eq, Feature.listToJson_eq]
    exact keyed_record (by
      simp [or_imp, forall_and, RecordKind.fields, Header.keyed_toJson, keyed_opt hbackground,
        hscenarios, hfile, keyed_list ih])

theorem Scenario.ofRecord?_toJson_of_proper :
    (∀ s : Step, (∀ t, s.Carries t → t.Proper) → Step.ofRecord? s.toJson = some s) ∧
    ∀ s : Scenario, (∀ t, s.Carries t → t.Proper) → Scenario.ofRecord? s.toJson = some s := by
  refine Scenario.induction (fun s hbody h => ?_) fun s hsteps hmade h => ?_
  · exact Step.ofRecord?_toJson fun b hb => hbody b hb fun t ht => h t (.body hb ht)
  · exact Scenario.ofRecord?_toJson (fun t ht => h t (.own ht))
      (fun x hx => hsteps x hx fun t ht => h t (.step hx ht))
      fun e he x hx => hmade e he x hx fun t ht => h t (.made he hx ht)

theorem Feature.ofRecord?_toJson_of_proper (f : Feature) (h : ∀ t, f.Carries t → t.Proper) :
    Feature.ofRecord? f.toJson = some f := by
  induction f using Feature.induction with
  | h f ih =>
    obtain ⟨hstep, hscenario⟩ := Scenario.ofRecord?_toJson_of_proper
    exact Feature.ofRecord?_toJson (fun t ht => h t (.header ht))
      (fun b hb x hx => hstep x fun t ht => h t (.background hb hx ht))
      (fun s hs => hscenario s fun t ht => h t (.scenario hs ht))
      fun m hm => ih m hm fun t ht => h t (.metas hm ht)

/-- A feature is read back from its document exactly if each of its tags can be read back. -/
theorem Feature.ofJson?_toJson_iff {f : Feature} :
    Feature.ofJson? f.toJson = some f ↔ ∀ t, f.Carries t → t.Proper := by
  rw [Feature.ofJson?, Feature.keyed_toJson]
  exact ⟨f.proper_of_read _, f.ofRecord?_toJson_of_proper⟩

/-- Each tag of a feature that was read, from JSON or from YAML, can be read back. -/
theorem Feature.proper_of_document {f : Feature}
    (h : (∃ doc, Feature.ofJson? doc = some f) ∨ ∃ doc, Feature.ofYaml? doc = some f) :
    ∀ t, f.Carries t → t.Proper := by
  rcases h with ⟨doc, h⟩ | ⟨doc, h⟩
  · exact f.proper_of_read _ h
  · obtain ⟨v, -, hv⟩ := Option.bind_eq_some_iff.mp h
    exact f.proper_of_read v hv

/-- A feature whose tags can be read back is read back as a whole. This holds of every feature that
was read from a document, and so a document stays the same once it was read and written. -/
theorem Feature.document_round_trip :
    (∀ f : Feature, (∀ t, f.Carries t → Tag.parse t.render = .ok t) →
      Feature.ofJson? f.toJson = some f) ∧
    (∀ f : Feature, (∃ doc, Feature.ofJson? doc = some f) ∨ (∃ doc, Feature.ofYaml? doc = some f) →
      (∀ t, f.Carries t → Tag.parse t.render = .ok t) ∧ Feature.ofJson? f.toJson = some f) ∧
    ∀ doc written, (Feature.ofJson? doc).map Feature.toJson = some written →
      (Feature.ofJson? written).map Feature.toJson = some written := by
  refine ⟨fun f h => ?_, fun f h => ⟨fun t ht => ?_, ?_⟩, fun doc written h => ?_⟩
  · exact Feature.ofJson?_toJson_iff.mpr fun t ht => Tag.parse_render_iff.mp (h t ht)
  · exact Tag.parse_render (Feature.proper_of_document h t ht)
  · exact Feature.ofJson?_toJson_iff.mpr (Feature.proper_of_document h)
  · obtain ⟨f, hf, rfl⟩ := Option.map_eq_some_iff.mp h
    rw [Feature.ofJson?_toJson_iff.mpr (Feature.proper_of_document (.inl ⟨doc, hf⟩)),
      Option.map_some]

/-- A failed call of a step definition in the background, an outline with a scenario made from it,
and a meta file that has one of its own. -/
theorem Feature.document_round_trip_nested :
    let greet : Scenario :=
      { tags := [.stepDef, .definedIn "greet.meta"], name := "I greet"
        metaFile := some "greet.meta"
        steps := [{ keyword := .given, expression := "hello", status := .skipped }] }
    let called : Step :=
      { keyword := .when, expression := "I greet", pos := { line := 3, column := 5 }
        table := [["a", ""], []], status := .failed ⟨1500000001, by decide⟩ "no \"voice\""
        attachments := [{ name := "log", file := "out/1.txt" }], body := some greet }
    let row : Scenario := { tags := [.custom "Owner" (some "a(b)")], name := "Door 1" }
    let outline : Scenario :=
      { name := "Door", isOutline := true
        examples := [{ table := [{ line := 7, cells := ["n"] }, { cells := ["1"] }]
                       scenarios := [row] }] }
    let inner : Feature := { header := { name := "Inner", tags := [.ignore] } }
    let f : Feature :=
      { header := { name := "Visit", tags := [.imports "greet.meta", .data "a.csv" 2] }
        background := some { steps := [called] }, scenarios := [outline], file := some "v.feature"
        metas := [{ header := { name := "Outer" }, metas := [inner] }] }
    (∀ t, f.Carries t → Tag.parse t.render = .ok t) ∧ Feature.ofJson? f.toJson = some f := by
  intro greet called row outline inner f
  have hread : Feature.ofJson? f.toJson = some f := by rfl
  have htags := (Feature.document_round_trip.2.1 f (.inl ⟨_, hread⟩)).1
  exact ⟨htags, Feature.document_round_trip.1 f htags⟩

end Gherkin
