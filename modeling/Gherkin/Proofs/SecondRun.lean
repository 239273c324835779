import Gherkin.Proofs.AlikeContexts
import Gherkin.Proofs.NormalForm
import Gherkin.Proofs.Restoration

/-! A feature that runs once more in the same context. Its meta files are loaded by then and are
passed over; once the context is reset, what is left of the first run does not show in the second. -/
namespace Gherkin

open EvalM Import

variable {σ : Type} {files : FileSystem} {action : Action σ} {ctx c : Context σ}

/-- Where everything is loaded, the same imports lead to nothing new. -/
theorem Import.Visits.again {loaded loaded' : LoadedPaths} {chain imports : List Path} {dir : Path}
    {done new : List Loaded} (h : Visits files loaded chain dir imports done (.ok new))
    (hl : ∀ path ∈ imports, ∀ q, target files dir path = .ok q → loaded'.contains q = true) :
    Visits files loaded' chain dir imports [] (.ok []) := by
  generalize hr : Except.ok new = r at h
  induction h with
  | nothing => exact .nothing
  | invalid | recursive | unreadable | failed => cases hr
  | known ht hc hlength _ _ ih =>
    obtain ⟨hpath, hl⟩ := List.forall_mem_cons.mp hl
    exact .known ht hc hlength (.inl (hpath _ ht)) (ih hl hr)
  | visited ht hf _ _ _ _ ih =>
    obtain ⟨hpath, hl⟩ := List.forall_mem_cons.mp hl
    exact .known ht hf.offChain hf.shallow (.inl (hpath _ ht)) (ih hl hr)

namespace Feature

variable {f n : Feature} {record : Option Record} {loaded loaded' : LoadedPaths}

theorem resolve_again {ms : List Feature} (h : Import.resolve files loaded f = .ok ms)
    (hl : ∀ q, Declares files f q → loaded'.contains q = true) :
    Import.resolve files loaded' f = .ok [] := by
  obtain ⟨r, hv, hr⟩ := visits_resolve files loaded f
  obtain ⟨r', hv', hr'⟩ := visits_resolve files loaded' f
  rw [h] at hr
  cases r with
  | error e => cases hr
  | ok new =>
    have hnone := hv.again fun path hpath q ht => hl q ⟨path, hpath, ht⟩
    rw [hr', hv'.unique hnone]
    rfl

/-- The normal form is the one there was, without meta files. -/
theorem normalize_again (h : f.normalize files loaded record = .ok n)
    (hl : ∀ q, Declares files f q → loaded'.contains q = true) :
    f.normalize files loaded' record = .ok { n with metas := [] } := by
  obtain ⟨ms, body, hms, -, hbody, hn⟩ := normalize_ok h
  rw [normalize, resolve_again hms hl, hbody, hn]
  rfl

/-- Without meta files the scenarios are evaluated, and that is all. -/
theorem exec_evaluate_of_no_metas {scenarios : List Scenario} (hn : n.isMeta = false)
    (hmetas : n.metas = [])
    (h : exec (evaluateScenarios action false n.scenarios) ctx = (.ok scenarios, c)) :
    exec (n.evaluate action) ctx = (.ok (n.result ctx.journal.length ([], scenarios) c), c) := by
  have hparts : exec (n.evaluateParts action) ctx = (.ok ([], scenarios), c) :=
    evaluateParts_ok.mpr ⟨ctx, by rw [hmetas]; rfl, h⟩
  rw [exec_evaluate, hparts]
  dsimp only
  rw [concluded_of_not_meta hn]

/-- No scenario of the normal form is a step definition if the feature declares none. -/
theorem NormalForm.isStepDef (h : NormalForm files loaded f record n) (hf : f.isMeta = false)
    (hs : ∀ s ∈ f.scenarios, s.isStepDef = false) : ∀ s ∈ n.scenarios, s.isStepDef = false := by
  obtain ⟨rest, hrest, -, hparts, -⟩ := h.scenarios
  obtain ⟨parts, hstands, hfurnished⟩ := hparts hf
  rw [hrest, List.forall_mem_append]
  refine ⟨fun b hb => ?_, fun t ht => ?_⟩
  · obtain ⟨r, -, rfl⟩ := List.mem_map.mp hb
    rfl
  · obtain ⟨s, hmem, hst⟩ := exists_of_mem_forall₂ hfurnished ht
    obtain ⟨made, hmade, hmem⟩ := List.mem_flatten.mp hmem
    obtain ⟨source, hsource, hstands⟩ := exists_of_mem_forall₂ hstands hmade
    have htags : t.tags = s.tags := by rw [hst.others]
    rw [Scenario.isStepDef, htags, ← Scenario.isStepDef, hstands.isStepDef hmem, hs source hsource]

theorem NormalForm.isStepDef_metas (h : NormalForm files loaded f record n)
    (hlinks : files.LinkFree) : ∀ m ∈ n.metas, ∀ s ∈ m.scenarios, s.isStepDef = true := by
  intro m hm s hs
  obtain ⟨p, g, -, -, -, hdefines, hmeta⟩ := h.metas m hm
  exact ((hdefines (hmeta hlinks)).owned s hs).isStepDef

end Feature

/-- Step definitions change nothing but the registry. -/
theorem declarations_change_registry {failed : Bool} {ss done : List Scenario}
    (hss : ∀ s ∈ ss, s.isStepDef = true)
    (h : exec (evaluateScenarios action failed ss) ctx = (.ok done, c)) :
    ∃ registry, c = { ctx with registry } := by
  induction ss generalizing ctx failed done with
  | nil =>
    cases h
    exact ⟨_, rfl⟩
  | cons s ss ih =>
    obtain ⟨hs, hss⟩ := List.forall_mem_cons.mp hss
    rw [exec_evaluateScenarios_cons, Scenario.exec_evaluate, if_pos hs] at h
    split at h
    · cases h
      exact ⟨_, rfl⟩
    · split at h
      · cases h
        exact ⟨_, rfl⟩
      · cases hadd : ctx.registry.add s with
        | error fault =>
          rw [hadd] at h
          cases h
        | ok registry =>
          rw [hadd] at h
          dsimp only at h
          rcases hrest : exec (evaluateScenarios action
            (failed || (s.marked .loaded).status.isFailed) ss) { ctx with registry } with
            ⟨_ | rest, c'⟩ <;> rw [hrest] at h <;> cases h
          obtain ⟨registry', rfl⟩ := ih hss hrest
          exact ⟨registry', rfl⟩

/-- Meta files change nothing but the registry and what is loaded. -/
theorem metas_change_definitions {fs done : List Feature}
    (hfs : ∀ f ∈ fs, ∀ s ∈ f.scenarios, s.isStepDef = true)
    (h : exec (fs.mapM (Feature.register action)) ctx = (.ok done, c)) :
    ∃ registry loaded, c = { ctx with registry, loaded } := by
  induction fs generalizing ctx done with
  | nil =>
    cases h
    exact ⟨_, _, rfl⟩
  | cons f fs ih =>
    obtain ⟨hf, hfs⟩ := List.forall_mem_cons.mp hfs
    rw [List.mapM_cons, exec_bind_ok] at h
    obtain ⟨d, c₁, hd, h⟩ := h
    obtain ⟨ds, c₂, hds, h⟩ := exec_bind_ok.mp h
    cases h
    obtain ⟨scenarios, c₁, hs, -, -, rfl⟩ := Feature.register_ok hd
    obtain ⟨registry, rfl⟩ := declarations_change_registry hf hs
    obtain ⟨registry', loaded, rfl⟩ := ih hfs hds
    exact ⟨registry', loaded, rfl⟩

theorem Scopes.feature_truncate (s : Scopes) (d : Nat) : (s.truncate d).feature = s.feature := by
  rcases Nat.le_total d s.depth with h | h
  · rw [truncate_eq h]
  · rw [truncate_of_depth_le h]

/-- No scope is left, and of the feature scope nothing but the name. -/
theorem Scopes.reset_eq {s : Scopes} (h : s.feature.name = Scope.featureName) : s.reset = {} := by
  simp only [reset, h]
  rfl

theorem named_frame (ha : action.Functional) : StepFrame action fun ctx c =>
    c.settings = ctx.settings ∧ c.scopes.feature.name = ctx.scopes.feature.name where
  refl _ := ⟨rfl, rfl⟩
  trans h₁ h₂ := ⟨h₂.1.trans h₁.1, h₂.2.trans h₁.2⟩
  unbound _ _ := ⟨rfl, rfl⟩
  attached _ _ := ⟨rfl, rfl⟩
  acted expression _ := ⟨rfl, ha.named expression _ _ _⟩
  tabled _ h := h
  called {_ c} frame params h := by
    refine ⟨h.1, ?_⟩
    rw [Context.left, Scopes.feature_truncate]
    exact h.2

/-- Once the context is reset, nothing tells it from the one in which the scenarios began. -/
theorem alike_reset (ha : action.Functional) {failed : Bool} {ss : List Scenario}
    (hss : ∀ s ∈ ss, s.isStepDef = false) (hscopes : ctx.scopes = {}) (hcalls : ctx.calls = [])
    (hjournal : ctx.journal = []) (hc : (exec (evaluateScenarios action failed ss) ctx).2 = c) :
    Alike [] c.journal ctx c.reset := by
  have definitions := definitions_frame action
  have named := named_frame ha
  obtain ⟨hregistry, -⟩ := definitions.scenarios_of failed
    (fun s hs => definitions.scenario_of_not_stepDef (hss s hs)) ctx
  obtain ⟨hsettings, hname⟩ := named.scenarios_of failed
    (fun s hs => named.scenario_of_not_stepDef (hss s hs)) ctx
  have hoptions := (options_frame action).scenarios failed ss ctx
  rw [hc] at hregistry hsettings hname hoptions
  rw [hscopes] at hname
  exact ⟨hscopes.trans (Scopes.reset_eq hname).symm, hregistry.symm, hsettings.symm, hoptions.symm,
    hcalls, [], [], hjournal, (List.append_nil _).symm, rfl⟩

/-- A feature whose step definitions all come from its imports, run in a new context and, after a
reset, once more: the second run loads nothing and comes to the same as the first in every scenario,
in every step and in the body of every call, by performing the same steps in the same order with the
same answers. -/
theorem second_run_repeats (hlinks : files.LinkFree) {f : Feature} (hf : f.isMeta = false)
    (hs : ∀ s ∈ f.scenarios, s.isStepDef = false) (record : Option Record) (ha : action.Functional)
    {settings : Settings} {options : Options} {store : AttachmentStore} {state : σ}
    {r : Feature.Result}
    (h : exec (f.run action files record) { settings, options, store, state } = (.ok r, c)) :
    ∃ r' c' events, exec (f.run action files record) c.reset = (.ok r', c') ∧
      r'.feature.metas = [] ∧
      r'.feature.scenarios.map (·.verdicts) = r.feature.scenarios.map (·.verdicts) ∧
      { r'.feature with scenarios := [], metas := [] } =
        { r.feature with scenarios := [], metas := [] } ∧
      r'.status.SameVerdict r.status ∧
      c'.journal = c.journal ++ events ∧
      events.map (·.untimed) = c.journal.map (·.untimed) ∧
      c'.scopes = c.scopes ∧ c'.registry = c.registry := by
  have hplace : MetasInPlace files ({ settings, options, store, state } : Context σ) :=
    fun p hp => absurd hp List.not_mem_nil
  have himports := (metasInPlace_run action hlinks hf hplace record).2 r c h
  obtain ⟨n, hn, hx⟩ := Feature.run_ok.mp h
  have hform := Feature.normalForm_of_normalize hn
  have hdefs := hform.isStepDef hf hs
  have hmeta : n.isMeta = false := by rwa [Feature.isMeta, Feature.file_of_normalize hn]
  obtain ⟨metas, c₁, scenarios, c₂, hmetas, hscenarios, rfl, hc⟩ := Feature.evaluate_ends hx
  rw [Feature.concluded_of_not_meta hmeta] at hc
  cases hc
  obtain ⟨registry, loaded, rfl⟩ := metas_change_definitions (hform.isStepDef_metas hlinks) hmetas
  -- What the scenarios came to in the first run they come to in the context that is reset.
  have halike := alike_reset ha hdefs rfl rfl rfl (congrArg Prod.snd hscenarios)
  have hrepeats := scenarios_repeat ha false n.scenarios halike
  rw [hscenarios] at hrepeats
  generalize hagain : exec (evaluateScenarios action false n.scenarios) c.reset = again at hrepeats
  obtain _ | @⟨_, scenarios', _, c', hview, hend⟩ := hrepeats
  obtain ⟨_, events, hfirst, hsecond, hevents⟩ := hend.noted
  rw [List.nil_append] at hfirst
  cases hfirst
  have hnormal : f.normalize files c.reset.loaded record = .ok { n with metas := [] } :=
    Feature.normalize_again hn himports
  have hresult := Feature.exec_evaluate_of_no_metas (n := { n with metas := [] }) hmeta rfl hagain
  refine ⟨_, c', events, Feature.run_ok.mpr ⟨_, hnormal, hresult⟩, rfl, hview.symm, rfl, ?_,
    hsecond, hevents.symm, hend.scopes.symm, hend.registry.symm⟩
  exact .of_untimed (Feature.status_of_verdicts hview.symm)

/-- A feature that calls a step definition it imports, and asserts of what it binds that it is not
bound yet. -/
def visiting : Feature where
  header := { name := "Visiting", tags := [.imports "/more.meta"] }
  scenarios := [{ name := "Door", steps := [
    { keyword := .given, expression := "greet" },
    { keyword := .and, expression := "door should not be \"open\"" },
    { keyword := .when, expression := "door is \"open\"" }] }]

theorem functional_builtin : (Action.builtin : Action σ).Functional where
  result _ _ _ _ _ := rfl
  scopes _ _ _ _ _ := rfl
  named expression settings scopes _ := by
    simp only [Action.builtin, Action.byRules]
    split <;> rfl

/-- Only the reset makes the second run come to the same. -/
theorem second_run_repeats_visiting :
    let run : EvalM Unit Feature.Result := visiting.run .builtin greetingFiles none
    ∃ r c r' c', exec run { state := () } = (.ok r, c) ∧ r.status.keyword = "Passed" ∧
      r.feature.metas.map (·.file) = [some "/greet.meta", some "/more.meta"] ∧
      (exec run c).1.toOption.map (·.status.keyword) = some "Failed" ∧
      exec run c.reset = (.ok r', c') ∧ r'.feature.metas = [] ∧
      r'.feature.scenarios.map (·.verdicts) = r.feature.scenarios.map (·.verdicts) ∧
      r'.status.SameVerdict r.status := by
  intro run
  have hrun : (exec run { state := () }).1.toOption.map (fun r =>
        (r.status.keyword, r.feature.metas.map (·.file))) =
      some ("Passed", [some "/greet.meta", some "/more.meta"]) := by
    decide +kernel
  have hstale : (exec run (exec run { state := () }).2).1.toOption.map (·.status.keyword) =
      some "Failed" := by
    decide +kernel
  obtain ⟨r, hr, hparts⟩ := Outcome.toOption_map_eq_some.mp hrun
  obtain ⟨hpassed, hmetas⟩ := Prod.mk.inj hparts
  have hfirst : exec run { state := () } = (.ok r, _) := Prod.ext hr rfl
  obtain ⟨r', c', -, hsecond, hnone, hsame, -, hverdict, -⟩ := second_run_repeats
    linkFree_greetingFiles rfl (by simp [visiting, Scenario.isStepDef]) none functional_builtin hfirst
  exact ⟨r, _, r', c', hfirst, hpassed, hmetas, hstale, hsecond, hnone, hsame, hverdict⟩

end Gherkin
