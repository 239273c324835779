import Gherkin.Proofs.LoadedMetas

/-! Loaded paths and registered step definitions. A meta file may be imported, or it may be called
itself, even with a data record; once its path is loaded its step definitions are registered, unless
a policy stopped the call on the file because the record could not be bound. -/
namespace Gherkin

open EvalM Import FileSystem

variable {σ : Type} {files : FileSystem} {ctx c : Context σ} {p : Path}

/-- The path leads to a meta file, and all scenarios of its normal form are step definitions that are
registered under their names and tell that file. -/
def Registered (files : FileSystem) (ctx : Context σ) (p : Path) : Prop :=
  ∃ m n, Feature.load files p = .ok m ∧ m.normalizeAlone files = .ok n ∧
    ∀ s ∈ n.scenarios, s.isStepDef = true ∧ ctx.registry.Carries s.name p

theorem registered_persists (files : FileSystem) : Persists (Registered (σ := σ) files) := by
  rintro ctx c p ⟨m, n, hm, hn, hs⟩ hgrows
  exact ⟨m, n, hm, hn, fun s hs' => ⟨(hs s hs').1, hgrows.carries _ _ (hs s hs').2⟩⟩

/-- Something failed, and under the options that keeps what comes after it from being evaluated. -/
def Options.Cut (options : Options) (r : Feature.Result) : Prop :=
  (options.exitOnFail || options.failFast) = true ∧ r.status.isFailed = true

/-- No policy cuts short a call on a meta file, which is called as it was read. -/
def Call.Whole (files : FileSystem) (ctx : Context σ) (k : Call σ) : Prop :=
  k.AsRead files ∧
    (k.feature.isMeta = true → ∀ r c, k.exec files ctx = (.ok r, c) → ¬ k.options.Cut r)

/-- The step definitions behind a record's binder are registered if the binder does not stop the
run. -/
theorem carries_of_binder {action : Action σ} {record : Option Record} {ss done : List Scenario}
    (hs : ∀ s ∈ ss, s.DefinedIn p)
    (h : exec (evaluateScenarios action false (record.toList.map Record.binder ++ ss)) ctx =
      (.ok done, c))
    (hgo : (ctx.options.exitOnFail || ctx.options.failFast) = true →
      (Status.fold (done.map (·.status))).isFailed = false) :
    ∀ s ∈ ss, c.registry.Carries s.name p := by
  cases record with
  | none => exact carries_of_evaluateScenarios hs rfl h
  | some record =>
    rw [Option.toList_some, List.map_singleton, List.singleton_append,
      exec_evaluateScenarios_cons] at h
    have hoptions := (options_frame action).scenario record.binder ctx
    rcases hb : exec (record.binder.evaluate action) ctx with ⟨_ | bound, c₁⟩ <;>
      rw [hb] at h hoptions
    · cases h
    · simp only [Bool.false_and, Bool.false_eq_true, if_false, Bool.false_or] at h
      rcases hr : exec (evaluateScenarios action bound.status.isFailed ss) c₁ with ⟨_ | ts, c₂⟩ <;>
        rw [hr] at h <;> cases h
      refine carries_of_evaluateScenarios hs ?_ hr
      rw [hoptions]
      cases hpolicy : ctx.options.exitOnFail || ctx.options.failFast with
      | false => exact Bool.and_false _
      | true =>
        have hbound : bound.status.isFailed = false := by
          rw [Bool.eq_false_iff]
          intro hb
          have hnone := hgo hpolicy
          rw [Bool.eq_false_iff, ne_eq, Status.isFailed_fold] at hnone
          exact hnone ⟨_, List.mem_cons_self, hb⟩
        rw [hbound, Bool.false_and]

/-- A meta file whose evaluation no policy cuts short is registered when it succeeds. -/
theorem registered_evaluate {action : Action σ} {f normal : Feature} {record : Option Record}
    {loaded : LoadedPaths} {r : Feature.Result} (hmeta : f.isMeta = true)
    (hf : Feature.load files p = .ok f) (hn : f.normalize files loaded record = .ok normal)
    (h : exec (normal.evaluate action) ctx = (.ok r, c)) (hcut : ¬ ctx.options.Cut r) :
    Registered files c p := by
  obtain ⟨ms, body, -, -, hbody, hnormal⟩ := Feature.normalize_ok hn
  have hdef := Feature.definedIn_of_normalizeAlone hmeta (Feature.file_of_load hf) hbody
  obtain ⟨metas, c₁, scenarios, c₂, hm, hs, hfeature, hstatus, loaded', rfl⟩ :=
    Feature.evaluate_ok h
  have hoptions := (options_frame action).metas normal.metas ctx
  rw [hm] at hoptions
  have hscenarios : normal.scenarios = record.toList.map Record.binder ++ body.scenarios := by
    rw [hnormal]
  rw [hscenarios] at hs
  have hcarries := carries_of_binder hdef hs fun hpolicy => by
    rw [Bool.eq_false_iff]
    intro hfailed
    rw [hoptions] at hpolicy
    refine hcut ⟨hpolicy, ?_⟩
    rw [hstatus, hfeature]
    exact hfailed
  exact ⟨f, body, hf, hbody, fun s hm => ⟨(hdef s hm).1, hcarries s hm⟩⟩

/-- What is loaded is registered, whatever calls went before, as long as no policy cut short a call
on a meta file. -/
theorem loaded_metas_registered (hlinks : files.LinkFree) (settings : Settings) (options : Options)
    (store : AttachmentStore) (state : σ)
    (h : Calls files (Call.Whole files) { settings, options, store, state } ctx) :
    ∀ p ∈ ctx.loaded.paths, ∃ m n, Feature.load files p = .ok m ∧ m.normalizeAlone files = .ok n ∧
      ∀ s ∈ n.scenarios, s.isStepDef = true ∧ ∃ t, ctx.registry.get? s.name = some t ∧
        t.tags.any (·.same (.definedIn p)) = true := by
  suffices hloads : ctx.Loads (Registered files) from hloads
  refine h.invariant (fun p hp => absurd hp List.not_mem_nil) fun ctx k hwhole hloads => ?_
  have hloads : Context.Loads (Registered files) { ctx with options := k.options } :=
    hloads.of_remembers (registered_persists files) ⟨rfl, fun _ _ => id⟩
  refine (hloads.run (registered_persists files) k.action ?_ ?_).1
  · intro p m n _ hreach hm hn ctx done c _ hr
    have hfile := Feature.file_of_load hm
    have hmeta : m.isMeta = true := by
      simp [Feature.isMeta, hfile, extension?_of_reaches hlinks hreach]
    have hdef := Feature.definedIn_of_normalizeAlone hmeta hfile hn
    obtain ⟨scenarios, c₁, hs, -, -, rfl⟩ := Feature.register_ok hr
    have hcarries := carries_of_evaluateScenarios hdef rfl hs
    exact ⟨m, n, hm, hn, fun s hs => ⟨(hdef s hs).1, hcarries s hs⟩⟩
  · intro p normal r c hmeta hfile hn hr _
    obtain ⟨hread, hcut⟩ := hwhole
    obtain ⟨p', hload⟩ := hread hmeta
    cases hfile.symm.trans (Feature.file_of_load hload)
    refine registered_evaluate hmeta hload hn hr (hcut hmeta r c ?_)
    rw [Call.exec, Feature.run, exec_get_bind, hn]
    exact hr

/-- A call on a meta file with a record of these columns. -/
def boundCall (columns : Pairs) (m : Feature) : Call Unit where
  options := { failFast := true }
  action := Action.builtin
  feature := m
  record := some { file := "people.csv", number := 1, columns }

/-- The record is bound, so the policy cuts nothing. -/
theorem loaded_metas_registered_bound :
    ∃ m, Feature.load greetingFiles "/greet.meta" = .ok m ∧
      let c := ((boundCall [("who", "x")] m).exec greetingFiles { state := () }).2
      c.loaded.paths = ["/greet.meta"] ∧
        ∃ m n, Feature.load greetingFiles "/greet.meta" = .ok m ∧
          m.normalizeAlone greetingFiles = .ok n ∧
          ∀ s ∈ n.scenarios, s.isStepDef = true ∧ ∃ t, c.registry.get? s.name = some t ∧
            t.tags.any (·.same (.definedIn "/greet.meta")) = true := by
  have hrun : (Feature.load greetingFiles "/greet.meta").toOption.map (fun m =>
      let done := (boundCall [("who", "x")] m).exec greetingFiles { state := () }
      (done.2.loaded.paths, done.1.toOption.map (·.status.isFailed))) =
        some (["/greet.meta"], some false) := by
    decide +kernel
  obtain ⟨m, hm, hrun⟩ := Outcome.toOption_map_eq_some.mp hrun
  obtain ⟨hpaths, hresult⟩ := Prod.mk.inj hrun
  obtain ⟨result, hresult, hpassed⟩ := Outcome.toOption_map_eq_some.mp hresult
  refine ⟨m, hm, hpaths, ?_⟩
  have hcalls : Calls greetingFiles (Call.Whole greetingFiles) { state := () }
      ((boundCall [("who", "x")] m).exec greetingFiles { state := () }).2 := by
    refine .next .none ⟨fun _ => ⟨_, hm⟩, fun _ r c hr hcut => ?_⟩
    cases (congrArg Prod.fst hr).symm.trans hresult
    simp [hcut.2] at hpassed
  exact loaded_metas_registered linkFree_greetingFiles {} {} {} () hcalls _
    (hpaths ▸ List.mem_singleton_self _)

/-- The record has a column that cannot be bound, and the policy keeps the step definition behind it
from being registered. The file counts as loaded all the same. -/
theorem cut_meta_not_registered :
    greetingFiles.LinkFree ∧
      ∃ c : Context Unit,
        Calls greetingFiles (fun _ => Call.AsRead greetingFiles) { state := () } c ∧
        ∃ m n, Feature.load greetingFiles "/greet.meta" = .ok m ∧
          m.normalizeAlone greetingFiles = .ok n ∧ "/greet.meta" ∈ c.loaded.paths ∧
          ∃ s ∈ n.scenarios, s.isStepDef = true ∧ c.registry.get? s.name = none := by
  have hrun : (Feature.load greetingFiles "/greet.meta").toOption.map (fun m =>
      let c := ((boundCall [("say \"hi\"", "x")] m).exec greetingFiles { state := () }).2
      (c.loaded.paths, (m.normalizeAlone greetingFiles).toOption.map fun n =>
        n.scenarios.map fun s => (s.isStepDef, (c.registry.get? s.name).isNone))) =
        some (["/greet.meta"], some [(true, true)]) := by
    decide +kernel
  obtain ⟨m, hm, hrun⟩ := Outcome.toOption_map_eq_some.mp hrun
  obtain ⟨hpaths, hscenarios⟩ := Prod.mk.inj hrun
  obtain ⟨n, hn, hscenarios⟩ := Outcome.toOption_map_eq_some.mp hscenarios
  obtain ⟨s, hs, hstate⟩ := List.map_eq_singleton_iff.mp hscenarios
  obtain ⟨hdef, hnone⟩ := Prod.mk.inj hstate
  refine ⟨linkFree_greetingFiles, _, .next (k := boundCall _ m) .none fun _ => ⟨_, hm⟩, m, n, hm,
    hn, hpaths ▸ List.mem_singleton_self _, s, by simp [hs], hdef, ?_⟩
  exact Option.isNone_iff_eq_none.mp hnone

end Gherkin
