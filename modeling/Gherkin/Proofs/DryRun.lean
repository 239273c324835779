import Gherkin.Proofs.Interpolation
import Gherkin.Proofs.Outcomes
import Gherkin.Proofs.ReachedSteps
import Gherkin.Proofs.RegistryHistory
import Gherkin.Proofs.Restoration

/-! A dry run. No action is performed in it and nothing is bound but the parameters of step
definitions, so that what fails in it is what refers to a name without a value; it registers and
loads what a real run does. -/
namespace Gherkin

open EvalM

namespace Reference

theorem fill_eq_error_iff {resolve : Reference → Option String} {fault : Unbound}
    (ts : List Token) :
    Id.run (fill (fun r => pure (resolve r)) ts) = .error fault ↔
      ∃ r, (ts.filterMap Token.reference?).find? (fun r => (resolve r).isNone) = some r ∧
        fault = { name := r.name } := by
  induction ts with
  | nil => simp [fill]
  | cons t ts ih =>
    cases t with
    | char c =>
      rw [List.filterMap_cons_none (by rfl), ← ih]
      simp only [fill, Id.run_bind, Id.run_pure]
      cases Id.run (fill (fun r => pure (resolve r)) ts) <;> simp [Except.map]
    | reference r =>
      have hr : (Token.reference r).reference? = some r := rfl
      rw [List.filterMap_cons_some hr, List.find?_cons]
      simp only [fill, Id.run_bind, Id.run_pure]
      cases resolve r with
      | none => simp [eq_comm]
      | some value =>
        simp only [Option.isNone_some, ← ih, Id.run_bind, Id.run_pure]
        cases Id.run (fill (fun r => pure (resolve r)) ts) <;> simp [Except.map]

/-- Interpolation stops at the first reference that has no value. -/
theorem interpolate_eq_error_iff {resolve : Reference → Option String} {text : String}
    {fault : Unbound} : interpolate resolve text = .error fault ↔
      ∃ r, (among text).find? (fun r => (resolve r).isNone) = some r ∧
        fault = { name := r.name } := by
  rw [among, ← fill_eq_error_iff, interpolate, interpolateM_eq_fill, Id.run_map]
  cases Id.run (fill (fun r => pure (resolve r)) (tokens text.toList)) <;> simp [Except.map]

end Reference

variable {σ : Type} {action : Action σ} {ctx c start : Context σ}

/-- Nothing was bound, called or performed. -/
structure Untouched (ctx c : Context σ) : Prop where
  scopes : c.scopes = ctx.scopes
  calls : c.calls = ctx.calls
  state : c.state = ctx.state
  settings : c.settings = ctx.settings
  options : c.options = ctx.options

theorem Untouched.refl (ctx : Context σ) : Untouched ctx ctx := ⟨rfl, rfl, rfl, rfl, rfl⟩

theorem dry_frame (action : Action σ) :
    FeatureFrame action fun ctx c =>
      ctx.options.dryRun = true → ctx.scopes.Sound → Untouched ctx c where
  refl ctx _ _ := .refl ctx
  trans hab hbc hdry hs := by
    have h₁ := hab hdry hs
    have h₂ := hbc (h₁.options ▸ hdry) (h₁.scopes ▸ hs)
    exact ⟨h₂.scopes.trans h₁.scopes, h₂.calls.trans h₁.calls, h₂.state.trans h₁.state,
      h₂.settings.trans h₁.settings, h₂.options.trans h₁.options⟩
  unbound _ _ _ _ := ⟨rfl, rfl, rfl, rfl, rfl⟩
  attached _ _ _ _ := ⟨rfl, rfl, rfl, rfl, rfl⟩
  acted _ hreal hdry _ := by simp [hreal] at hdry
  tabled {ctx c} table h hdry hs := by
    have hc := h hdry (Scopes.sound_apply (.bind _ _) hs)
    refine ⟨?_, hc.calls, hc.state, hc.settings, hc.options⟩
    rw [Context.untabled, hc.scopes]
    exact Scopes.clearObject_bindObject hs _ _
  called {ctx c} frame params h hdry hs := by
    have hc := h hdry (Scopes.sound_apply (.push _) hs)
    refine ⟨?_, congrArg (List.drop 1) hc.calls, hc.state, hc.settings, hc.options⟩
    rw [Context.left, hc.scopes]
    exact Scopes.truncate_push hs _
  registered _ _ _ := ⟨rfl, rfl, rfl, rfl, rfl⟩
  loaded _ _ _ _ := ⟨rfl, rfl, rfl, rfl, rfl⟩

/-- The scope of the parameters of a call. -/
def Caller.scope (k : Caller) : Scope :=
  { name := Scope.stepDefName, bindings := k.found.params }

/-- In a dry run that began at `start`, what is bound inside some calls is what was bound there and
their parameters. -/
structure Dry (start : Context σ) (_room : Nat) (callers : List Caller) (ctx : Context σ) : Prop
    where
  dry : ctx.options.dryRun = true
  sound : ctx.scopes.Sound
  settings : ctx.settings = start.settings
  all : ctx.scopes.all = callers.map (·.scope) ++ start.scopes.all

theorem scopes_entering (s : Step) (k : Caller) (ctx : Context σ) :
    (ctx.entering s k).scopes = (ctx.atStep s).scopes.push k.scope := rfl

theorem Context.sound_atStep (h : ctx.scopes.Sound) (s : Step) : (ctx.atStep s).scopes.Sound := by
  unfold atStep
  split
  · exact h
  · exact Scopes.sound_apply (.bind _ _) h

theorem Context.all_atStep (s : Step) (ctx : Context σ) :
    (ctx.atStep s).scopes.all = ctx.scopes.all := by
  unfold atStep
  split <;> rfl

theorem Context.settings_atStep (s : Step) (ctx : Context σ) :
    (ctx.atStep s).settings = ctx.settings := by
  unfold atStep
  split <;> rfl

theorem dry_invariant (action : Action σ) (start : Context σ) :
    MomentInvariant action (Dry start) where
  step {room callers ctx} s h := by
    have hkeeps := (dry_frame action).step room s ctx h.dry h.sound
    exact ⟨hkeeps.options ▸ h.dry, hkeeps.scopes ▸ h.sound, hkeeps.settings.trans h.settings,
      hkeeps.scopes ▸ h.all⟩
  entering {room callers ctx k s} h hk := by
    refine ⟨?_, ?_, ?_, ?_⟩
    · exact (congrArg Options.dryRun (Context.options_atStep s ctx)).trans h.dry
    · exact Scopes.sound_apply (.push _) (Context.sound_atStep h.sound s)
    · exact (Context.settings_atStep s ctx).trans h.settings
    · have hall := (Context.all_atStep s ctx).trans h.all
      rw [scopes_entering]
      exact congrArg (k.scope :: ·) hall
  registered _ _ h := ⟨h.dry, h.sound, h.settings, h.all⟩
  loaded _ _ h := ⟨h.dry, h.sound, h.settings, h.all⟩

/-- The text of the step refers to `r`, which was bound neither where the run began nor in the
settings nor by the parameters of the calls inside which the step lies. -/
structure Moment.Lacks (m : Moment σ) (start : Context σ) (r : Reference) : Prop where
  among : r ∈ Reference.among m.step.expression
  scopes : start.scopes.get? r.name = none
  settings : start.settings.get? r.name = none
  params : ∀ k ∈ m.callers, r.name ∉ k.found.params.map (·.1)

theorem Context.resolve_eq_none_iff {r : Reference} : ctx.resolve r = none ↔
    ctx.scopes.get? r.name = none ∧ ctx.settings.get? r.name = none := by
  cases r <;> simp [resolve, Reference.name, and_comm]

theorem Caller.get?_scope_eq_none_iff {k : Caller} {name : String} :
    k.scope.get? name = none ↔ name ∉ k.found.params.map (·.1) := by
  rw [Scope.get?_eq_none_iff, List.mem_map]
  exact ⟨fun h ⟨p, hp, he⟩ => h p.2 (he ▸ hp), fun h value hm => h ⟨_, hm, rfl⟩⟩

namespace Dry

variable {m : Moment σ} (h : Dry start m.room m.callers m.context)

include h

theorem lacks_iff {r : Reference} : m.Lacks start r ↔
    r ∈ Reference.among m.step.expression ∧ m.context.resolve r = none := by
  have hscopes : m.context.scopes.get? r.name = none ↔
      (∀ k ∈ m.callers, r.name ∉ k.found.params.map (·.1)) ∧ start.scopes.get? r.name = none := by
    rw [Scopes.get?, h.all, List.findSome?_append, Option.or_eq_none_iff, Scopes.get?]
    simp only [List.findSome?_eq_none_iff, List.forall_mem_map, Caller.get?_scope_eq_none_iff]
  rw [Context.resolve_eq_none_iff, hscopes, h.settings]
  constructor
  · exact fun hl => ⟨hl.among, ⟨hl.params, hl.scopes⟩, hl.settings⟩
  · rintro ⟨hr, ⟨hp, hs⟩, ht⟩
    exact ⟨hr, hs, ht, hp⟩

theorem unbound_of_lacks {r : Reference} (hr : m.Lacks start r) :
    ∃ r, m.Lacks start r ∧ m.move = .unbound { name := r.name } := by
  obtain ⟨hr, hnone⟩ := h.lacks_iff.mp hr
  have hsome : ((Reference.among m.step.expression).find? fun r =>
      (m.context.resolve r).isNone).isSome = true :=
    List.find?_isSome.mpr ⟨r, hr, by simp [hnone]⟩
  obtain ⟨first, hfirst⟩ := Option.isSome_iff_exists.mp hsome
  refine ⟨first, h.lacks_iff.mpr ⟨List.mem_of_find?_eq_some hfirst, ?_⟩, ?_⟩
  · simpa using List.find?_some hfirst
  · exact Step.move_eq_unbound_iff.mpr (Reference.interpolate_eq_error_iff.mpr ⟨first, hfirst, rfl⟩)

theorem lacks_of_unbound {fault : Unbound} (hm : m.move = .unbound fault) :
    ∃ r, m.Lacks start r ∧ fault = { name := r.name } := by
  obtain ⟨r, hr, rfl⟩ := Reference.interpolate_eq_error_iff.mp (Step.move_eq_unbound_iff.mp hm)
  refine ⟨r, h.lacks_iff.mpr ⟨List.mem_of_find?_eq_some hr, ?_⟩, rfl⟩
  simpa using List.find?_some hr

/-- No step asks the action. -/
theorem answer?_of_event {e : Event} (he : m.event? action = some e) : e.answer? = none := by
  unfold Moment.event? at he
  split at he
  · cases he
    rfl
  · cases he
  · rw [if_pos h.dry] at he
    cases he
  · cases he
    rfl

/-- What fails without being called refers to a name without a value. -/
theorem lacks_of_event {e : Event} {cause : String} (he : m.event? action = some e)
    (hcause : e.failure? = some cause) :
    ∃ r, m.Lacks start r ∧ m.move = .unbound { name := r.name } ∧
      cause = Unbound.message { name := r.name } := by
  unfold Moment.event? at he
  split at he
  · next fault hm =>
    cases he
    cases hcause
    obtain ⟨r, hr, rfl⟩ := h.lacks_of_unbound hm
    exact ⟨r, hr, hm, rfl⟩
  · cases he
  · rw [if_pos h.dry] at he
    cases he
  · cases he
    cases hcause

end Dry

/-- What comes of a step that a dry run reached: it fails if its text refers to a name without a
value. Otherwise it is taken for passed, unless it is a call, which fails only through such a step
inside it. -/
structure DryOutcome (action : Action σ) (start : Context σ) (m : Moment σ) (t : Step) : Prop where
  unbound : (∃ r, m.Lacks start r) →
    ∃ r, m.Lacks start r ∧ t.status = .failed .zero (Unbound.message { name := r.name })
  bound : (¬∃ r, m.Lacks start r) →
    ∃ text, Reference.interpolate m.context.resolve m.step.expression = .ok text ∧
      (m.context.registry.resolve text = .ok none → t.status = .passed .zero)
  call : ∀ text found, Reference.interpolate m.context.resolve m.step.expression = .ok text →
    m.context.registry.resolve text = .ok (some found) → t.status.isFailed = true →
    ∃ n ∈ m.inside action, ∃ r u, n.Lacks start r ∧ n.outcome action = .ok u ∧
      u.status = .failed .zero (Unbound.message { name := r.name }) ∧
      t.status.cause? = some (Unbound.message { name := r.name })

section Outcomes

variable {m : Moment σ} {t : Step}

theorem Moment.outcome_of_unbound (action : Action σ) {fault : Unbound} (hm : m.move = .unbound fault) :
    ∃ t, m.outcome action = .ok t ∧ t.status = .failed .zero fault.message := by
  obtain ⟨_, hf⟩ := Step.exec_fail m.step (m.context.note (.unbound fault)) Duration.zero
    fault.message
  rw [outcome, Step.exec_of_unbound action hm, hf]
  exact ⟨_, rfl, rfl⟩

/-- A step that refers to a name without a value fails, and tells one. -/
theorem Dry.outcome_of_lacks (action : Action σ) (h : Dry start m.room m.callers m.context) {r : Reference}
    (hr : m.Lacks start r) : ∃ r t, m.Lacks start r ∧ m.outcome action = .ok t ∧
      t.status = .failed .zero (Unbound.message { name := r.name }) := by
  obtain ⟨r, hr, hm⟩ := h.unbound_of_lacks hr
  obtain ⟨t, ht, hstatus⟩ := Moment.outcome_of_unbound action hm
  exact ⟨r, t, hr, ht, hstatus⟩

/-- A step that stands for no step definition is taken for passed. -/
theorem Dry.outcome_of_literal (h : Dry start m.room m.callers m.context) {text : String}
    (hm : m.move = .literal text) :
    m.outcome action = .ok (m.step.marked (.passed .zero)) := by
  rw [Moment.outcome, Step.exec_of_literal action hm, Step.exec_perform,
    Context.options_atStep, if_pos h.dry]

/-- A call fails only through a step in its body that refers to a name without a value. -/
theorem Dry.outcome_of_call (h : Dry start m.room m.callers m.context) {k : Caller}
    (hk : m.move = .call k) (ht : m.outcome action = .ok t) (hf : t.status.isFailed = true) :
    ∃ n ∈ m.inside action, ∃ r u, n.Lacks start r ∧ n.outcome action = .ok u ∧
      u.status = .failed .zero (Unbound.message { name := r.name }) ∧
      t.status.cause? = some (Unbound.message { name := r.name }) := by
  have faithful := (faithful_step action).evaluate m.room m.callers m.step
  have dry := (dry_invariant action start).traceable.evaluate m.room m.callers m.step
  obtain ⟨⟨events, hj, hfirst⟩, -⟩ := step_tells m.room m.step m.context t
    (exec (m.step.evaluate action m.room) m.context).2 (Prod.ext ht rfl)
  obtain ⟨cause, hcause⟩ := Status.isFailed_iff_cause?.mp hf
  rw [faithful.journal, List.append_cancel_left_eq] at hj
  rw [hcause, ← hj] at hfirst
  obtain ⟨e, he, hfailure⟩ := List.exists_of_findSome?_eq_some hfirst
  obtain ⟨n, hn, he⟩ := List.mem_filterMap.mp he
  have hdry := (dry m.context h).2 n hn
  obtain ⟨r, hr, hmove, rfl⟩ := hdry.lacks_of_event he hfailure
  obtain ⟨u, hu, hstatus⟩ := Moment.outcome_of_unbound action hmove
  refine ⟨n, ?_, r, u, hr, hu, hstatus, hcause⟩
  rw [Moment.inside, Step.trace_of_call action hk, List.tail_cons]
  rw [Step.trace_of_call action hk] at hn
  rcases List.mem_cons.mp hn with rfl | hn
  · -- The call itself refers to nothing that lacks a value.
    cases hk.symm.trans hmove
  · exact hn

/-- What comes of a step that was reached, if it is not refused. -/
theorem Dry.outcome (h : Dry start m.room m.callers m.context) (ht : m.outcome action = .ok t) :
    DryOutcome action start m t where
  unbound := by
    rintro ⟨_, hr⟩
    obtain ⟨r, u, hr, hu, hstatus⟩ := h.outcome_of_lacks action hr
    cases ht.symm.trans hu
    exact ⟨r, hr, hstatus⟩
  bound hlacks := by
    rcases hm : m.move with fault | fault | text | k
    · obtain ⟨r, hr, -⟩ := h.lacks_of_unbound hm
      exact absurd ⟨r, hr⟩ hlacks
    · rw [Moment.outcome, Step.exec_of_refused action hm] at ht
      cases ht
    · cases (h.outcome_of_literal hm).symm.trans ht
      exact ⟨text, (Step.move_eq_literal_iff.mp hm).1, fun _ => rfl⟩
    · obtain ⟨⟨hi, hsome⟩, -, -⟩ := Step.move_eq_call_iff.mp hm
      exact ⟨k.text, hi, fun hnone => by cases hsome.symm.trans hnone⟩
  call text found hi hr hf := by
    rcases hm : m.move with fault | fault | text' | k
    · cases hi.symm.trans (Step.move_eq_unbound_iff.mp hm)
    · rw [Moment.outcome, Step.exec_of_refused action hm] at ht
      cases ht
    · obtain ⟨hi', hnone⟩ := Step.move_eq_literal_iff.mp hm
      cases hi.symm.trans hi'
      cases hr.symm.trans hnone
    · exact h.outcome_of_call hm ht hf

end Outcomes

/-- The registry once the step definitions among some scenarios are registered. -/
def Registry.addAll (r : Registry) (ss : List Scenario) : Registry :=
  r.applyAll ((ss.filter (·.isStepDef)).map .add)

theorem Registry.addAll_append (r : Registry) (ss ss' : List Scenario) :
    r.addAll (ss ++ ss') = (r.addAll ss).addAll ss' := by
  rw [addAll, List.filter_append, List.map_append, applyAll, List.foldl_append]
  rfl

section Definitions

theorem definitions_of_scenario {s t : Scenario} (h : exec (s.evaluate action) ctx = (.ok t, c)) :
    c.registry = ctx.registry.addAll [s] ∧ c.loaded = ctx.loaded := by
  cases hs : s.isStepDef with
  | false =>
    have hkeeps := (definitions_frame action).scenario_of_not_stepDef hs ctx
    rw [h] at hkeeps
    simpa [Registry.addAll, hs, Registry.applyAll] using hkeeps
  | true =>
    rw [Scenario.exec_evaluate, if_pos hs] at h
    cases hadd : ctx.registry.add s with
    | error fault =>
      rw [hadd] at h
      cases h
    | ok registry =>
      rw [hadd] at h
      cases h
      simp [Registry.addAll, hs, Registry.applyAll, Registry.Operation.apply, hadd]

theorem definitions_of_scenarios (h : ctx.RunsAll) {failed : Bool} {ss ts : List Scenario}
    (hx : exec (evaluateScenarios action failed ss) ctx = (.ok ts, c)) :
    c.registry = ctx.registry.addAll ss ∧ c.loaded = ctx.loaded := by
  induction ss generalizing ctx failed ts with
  | nil =>
    cases hx
    exact ⟨rfl, rfl⟩
  | cons s ss ih =>
    obtain ⟨t, c₁, ts, hs, hss, -⟩ := evaluateScenarios_cons_ok h hx
    have hoptions := (options_frame action).scenario s ctx
    rw [hs] at hoptions
    obtain ⟨hregistry, hloaded⟩ := definitions_of_scenario hs
    obtain ⟨hrest, hloaded'⟩ := ih (by rwa [Context.RunsAll, hoptions]) hss
    rw [← List.singleton_append, Registry.addAll_append, ← hregistry]
    exact ⟨hrest, hloaded'.trans hloaded⟩

theorem definitions_of_metas (h : ctx.RunsAll) {fs done : List Feature}
    (hx : exec (fs.mapM (Feature.register action)) ctx = (.ok done, c)) :
    c.registry = ctx.registry.addAll (fs.flatMap (·.scenarios)) ∧
      c.loaded = fs.foldl (fun loaded f => loaded.insert (f.file.getD "")) ctx.loaded := by
  induction fs generalizing ctx done with
  | nil =>
    cases hx
    exact ⟨rfl, rfl⟩
  | cons f fs ih =>
    rw [List.mapM_cons, exec_bind_ok] at hx
    obtain ⟨d, c₁, hf, hx⟩ := hx
    obtain ⟨ds, c₂, hfs, hx⟩ := exec_bind_ok.mp hx
    cases hx
    have hoptions := (options_frame action).register f ctx
    rw [hf] at hoptions
    obtain ⟨ts, c₁, hts, -, -, rfl⟩ := Feature.register_ok hf
    obtain ⟨hregistry, hloaded⟩ := definitions_of_scenarios h hts
    obtain ⟨hrest, hloaded'⟩ := ih (by rwa [Context.RunsAll, hoptions]) hfs
    rw [List.flatMap_cons, Registry.addAll_append, ← hregistry, List.foldl_cons, ← hloaded]
    exact ⟨hrest, hloaded'⟩

/-- What a feature registers and loads depends on nothing but the feature, as long as it runs to its
end. -/
theorem definitions_of_feature (h : ctx.RunsAll) {f : Feature} {r : Feature.Result}
    (hx : exec (f.evaluate action) ctx = (.ok r, c)) :
    c.registry = ctx.registry.addAll (f.metas.flatMap (·.scenarios) ++ f.scenarios) ∧
      c.loaded =
        let loaded := f.metas.foldl (fun loaded m => loaded.insert (m.file.getD "")) ctx.loaded
        if f.isMeta then f.file.elim loaded loaded.insert else loaded := by
  obtain ⟨metas, c₁, scenarios, c₂, hm, hs, -, rfl⟩ := Feature.evaluate_ends hx
  have hoptions := (options_frame action).metas f.metas ctx
  rw [hm] at hoptions
  obtain ⟨hregistry, hloaded⟩ := definitions_of_metas h hm
  obtain ⟨hregistry', hloaded'⟩ := definitions_of_scenarios (by rwa [Context.RunsAll, hoptions]) hs
  rw [Registry.addAll_append, ← hregistry, ← hregistry', ← hloaded, ← hloaded']
  unfold Feature.concluded
  split <;> exact ⟨rfl, rfl⟩

end Definitions

/-- A dry run performs nothing and leaves scopes, calls and objects as they were, however it ends.
When it ends well, the steps that were reached are those that it returns, at each depth, and each
failed because it refers to a name without a value, or was taken for passed, or was a call, which
fails through such a step inside it only. Without policies it registers and loads what a real run
does. -/
theorem dry_run_touches_nothing (action : Action σ) (h : action.Uses fun _ => True)
    (hr : Context.Reachable action ctx) (hdry : ctx.options.dryRun = true) (f : Feature) :
    (∃ events, (exec (f.evaluate action) ctx).2.journal = ctx.journal ++ events ∧
      ∀ e ∈ events, e.answer? = none) ∧
    Untouched ctx (exec (f.evaluate action) ctx).2 ∧
    (∀ r c, exec (f.evaluate action) ctx = (.ok r, c) →
      f.Shows action ctx r.feature ∧
        ∀ m ∈ f.trace action ctx, ∃ t, m.outcome action = .ok t ∧ DryOutcome action ctx m t) ∧
    (ctx.RunsAll → ∀ (action' : Action σ) (real : Context σ) r c r' c', real.RunsAll →
      real.options.dryRun = false → real.registry = ctx.registry → real.loaded = ctx.loaded →
      exec (f.evaluate action) ctx = (.ok r, c) → exec (f.evaluate action') real = (.ok r', c') →
        c'.registry = c.registry ∧ c'.loaded = c.loaded) := by
  have hsound := hr.sound h
  have faithful := faithful_feature action f
  have hstart : Dry ctx ctx.room [] ctx := ⟨hdry, hsound, rfl, rfl⟩
  have hmoments := (dry_invariant action ctx).feature hstart f
  refine ⟨⟨_, faithful.journal ctx, ?_⟩, (dry_frame action).feature f ctx hdry hsound, ?_, ?_⟩
  · intro e he
    obtain ⟨m, hm, he⟩ := List.mem_filterMap.mp he
    exact (hmoments m hm).answer?_of_event he
  · intro r c hx
    refine ⟨feature_shows hx, fun m hm => ?_⟩
    cases ht : m.outcome action with
    | error e => cases hx ▸ faithful.raised ctx e ⟨m, hm, ht⟩
    | ok t => exact ⟨t, rfl, (hmoments m hm).outcome ht⟩
  · intro hall action' real r c r' c' hreal _ hregistry hloaded hx hx'
    obtain ⟨hr, hl⟩ := definitions_of_feature hall hx
    obtain ⟨hr', hl'⟩ := definitions_of_feature hreal hx'
    rw [hr, hr', hl, hl', hregistry, hloaded]
    exact ⟨rfl, rfl⟩

/-- A call with a step inside that refers to a name without a value. -/
def parting : Feature where
  header := { name := "Parting" }
  scenarios := [
    { name := "I leave <name>", tags := [.stepDef], steps := [
      { keyword := .given, expression := "bye $<name>" },
      { keyword := .and, expression := "door is \"$<state>\"" }] },
    { name := "Ada", steps := [{ keyword := .when, expression := "I leave Ada" }] }]

theorem dry_run_touches_nothing_parting :
    let ctx : Context Unit := { options := { dryRun := true }, state := () }
    let real : Context Unit := { state := () }
    ∃ r c r' c', exec (parting.evaluate .builtin) ctx = (.ok r, c) ∧
      exec (parting.evaluate .builtin) real = (.ok r', c') ∧
      r.status.cause? = some "unbound reference: state" ∧ Untouched ctx c ∧
      parting.Shows .builtin ctx r.feature ∧
      (r.feature.reached false).map (·.expression) = ["I leave Ada"] ∧
      (r.feature.reached false).flatMap (fun t =>
        (reachedSteps ((t.body.map (·.allSteps)).getD [])).map (·.status.keyword)) =
          ["Passed", "Failed"] ∧
      (∀ m ∈ parting.trace .builtin ctx,
        ∃ t, m.outcome .builtin = .ok t ∧ DryOutcome .builtin ctx m t) ∧
      c'.registry = c.registry := by
  intro ctx real
  have hdry : (exec (parting.evaluate .builtin) ctx).1.toOption.map (fun r =>
      (r.status.cause?, (r.feature.reached false).map (·.expression),
        (r.feature.reached false).flatMap fun t =>
          (reachedSteps ((t.body.map (·.allSteps)).getD [])).map (·.status.keyword))) =
      some (some "unbound reference: state", ["I leave Ada"], ["Passed", "Failed"]) := by
    decide +kernel
  have hreal : (exec (parting.evaluate .builtin) real).1.toOption.map (fun _ => ()) = some () := by
    decide +kernel
  obtain ⟨r, hr, hshown⟩ := Outcome.toOption_map_eq_some.mp hdry
  obtain ⟨r', hr', -⟩ := Outcome.toOption_map_eq_some.mp hreal
  simp only [Prod.mk.injEq] at hshown
  obtain ⟨hcause, htop, hbody⟩ := hshown
  have hr : exec (parting.evaluate .builtin) ctx = (.ok r, _) := Prod.ext hr rfl
  have hr' : exec (parting.evaluate .builtin) real = (.ok r', _) := Prod.ext hr' rfl
  obtain ⟨-, huntouched, houtcomes, hsame⟩ := dry_run_touches_nothing .builtin
    (builtin_uses.mono fun _ _ => trivial) (.fresh {} { dryRun := true } {} ()) rfl parting
  obtain ⟨hshows, houtcomes⟩ := houtcomes r _ hr
  obtain ⟨hregistry, -⟩ := hsame ⟨rfl, rfl⟩ .builtin real _ _ _ _ ⟨rfl, rfl⟩ rfl rfl rfl hr hr'
  exact ⟨r, _, r', _, hr, hr', hcause, huntouched, hshows, htop, hbody, houtcomes, hregistry⟩

end Gherkin
