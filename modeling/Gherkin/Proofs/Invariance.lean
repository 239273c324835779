import Gherkin.Proofs.Composition

/-! Relations between the context before an evaluation and the one after it, whatever its outcome.
A relation that each single effect of a step respects is respected by whole evaluations. -/
namespace Gherkin

open EvalM

variable {σ α β : Type} {R : Context σ → Context σ → Prop}

/-- Every context is related to the one that `x` leaves, also when `x` ends in an error. -/
def EvalM.Keeps (R : Context σ → Context σ → Prop) (x : EvalM σ α) : Prop :=
  ∀ ctx, R ctx (exec x ctx).2

/-- A relation that the effects of a step respect. Binding a table and calling a step definition
count together with what undoes them, and an action counts unless the run is dry. -/
structure StepFrame (action : Action σ) (R : Context σ → Context σ → Prop) : Prop where
  refl : ∀ ctx, R ctx ctx
  trans : ∀ {a b c}, R a b → R b c → R a c
  unbound : ∀ {ctx fault} text, Reference.interpolate ctx.resolve text = .error fault →
    R ctx (ctx.note (.unbound fault))
  attached : ∀ ctx cause, R ctx (ctx.attached cause)
  acted : ∀ {ctx : Context σ} expression, ctx.options.dryRun = false →
    R ctx (ctx.acted action expression)
  tabled : ∀ {ctx c} table, R (Context.tabled table ctx) c → R ctx c.untabled
  called : ∀ {ctx c} frame params, R (Context.entered frame params ctx) c →
    R ctx (c.left ctx.scopes.depth)

/-- A relation that registration respects, too. -/
structure ScenarioFrame (action : Action σ) (R : Context σ → Context σ → Prop) : Prop
    extends StepFrame action R where
  registered : ∀ {ctx : Context σ} {s registry}, ctx.registry.add s = .ok registry →
    R ctx { ctx with registry }

/-- A relation that holds whatever becomes of the loaded paths. -/
structure FeatureFrame (action : Action σ) (R : Context σ → Context σ → Prop) : Prop
    extends ScenarioFrame action R where
  loaded : ∀ (ctx : Context σ) loaded, R ctx { ctx with loaded }

namespace StepFrame

variable {action : Action σ} (h : StepFrame action R)

include h

theorem pure (a : α) : Keeps R (Pure.pure a : EvalM σ α) := h.refl

theorem throw (e : EvalError) : Keeps R (MonadExcept.throw e : EvalM σ α) := h.refl

theorem bind {x : EvalM σ α} {f : α → EvalM σ β} (hx : Keeps R x) (hf : ∀ a, Keeps R (f a)) :
    Keeps R (x >>= f) := by
  intro ctx
  have hc := hx ctx
  rw [exec_bind]
  rcases hr : exec x ctx with ⟨_ | a, c⟩ <;> rw [hr] at hc
  · exact hc
  · exact h.trans hc (hf a c)

theorem fail (s : Step) (elapsed : Duration) (cause : String) : Keeps R (s.fail elapsed cause) := by
  intro ctx
  obtain ⟨_, he⟩ := Step.exec_fail s ctx elapsed cause
  rw [he]
  exact h.attached ctx cause

theorem perform (s : Step) (expression : String) : Keeps R (s.perform action expression) := by
  intro ctx
  rw [Step.exec_perform]
  split
  · exact h.refl ctx
  · next hdry =>
    have hacted := h.acted expression (Bool.eq_false_iff.mpr hdry)
    dsimp only
    split
    · exact hacted
    · exact h.trans hacted (h.fail _ _ _ _)

theorem evaluateWith {call : Step → String → Registry.Resolved → EvalM σ Step}
    (hc : ∀ s expression found, Keeps R (call s expression found)) (s : Step) :
    Keeps R (s.evaluateWith action call) := by
  intro ctx
  have carried : ∀ expression, Keeps R (s.carryOut action call expression) := by
    intro expression ctx
    rw [Step.exec_carryOut]
    split
    · exact h.refl ctx
    · exact hc s expression _ ctx
    · exact h.perform s expression ctx
  rw [Step.exec_evaluateWith]
  split
  · next hf => exact h.trans (h.unbound _ hf) (h.fail _ _ _ _)
  · rw [Step.exec_withTable]
    split
    · exact carried _ ctx
    · exact h.tabled _ (carried _ _)

theorem call {run : Scenario → EvalM σ Scenario} (hr : ∀ s, Keeps R (run s)) (s : Step)
    (expression : String) (found : Registry.Resolved) : Keeps R (s.call run expression found) := by
  intro ctx
  rw [Step.exec_call]
  dsimp only
  split
  · exact h.refl ctx
  · exact h.called _ _ (hr _ _)

theorem compositional : Compositional action fun _ => Keeps R where
  pure := h.pure
  throw := h.throw
  bind := h.bind
  call := h.call
  evaluateWith := h.evaluateWith

theorem body {evaluate : Step → EvalM σ Step} (he : ∀ s, Keeps R (evaluate s)) (s : Scenario) :
    Keeps R (s.evaluateBody evaluate) :=
  h.compositional.body he s

theorem step (room : Nat) (s : Step) : Keeps R (s.evaluate action room) :=
  h.compositional.step room s

theorem scenario_of_not_stepDef {s : Scenario} (hs : s.isStepDef = false) :
    Keeps R (s.evaluate action) := by
  intro ctx
  rw [Scenario.exec_evaluate, hs]
  simp only [Bool.false_eq_true, if_false]
  split
  · exact h.refl ctx
  · exact h.body (h.step _) s ctx

theorem scenarios_of (failed : Bool) {ss : List Scenario}
    (hss : ∀ s ∈ ss, Keeps R (s.evaluate action)) : Keeps R (evaluateScenarios action failed ss) := by
  induction ss generalizing failed with
  | nil => exact h.refl
  | cons s ss ih =>
    obtain ⟨hs, hss⟩ := List.forall_mem_cons.mp hss
    intro ctx
    rw [exec_evaluateScenarios_cons]
    split
    · exact h.refl ctx
    · split
      · exact h.refl ctx
      · have hs := hs ctx
        rcases hr : exec (s.evaluate action) ctx with ⟨_ | done, c⟩ <;> rw [hr] at hs
        · exact hs
        · exact h.trans hs (ih _ hss c)

end StepFrame

namespace ScenarioFrame

variable {action : Action σ} (h : ScenarioFrame action R)

include h

theorem scenario (s : Scenario) : Keeps R (s.evaluate action) := by
  cases hs : s.isStepDef with
  | false => exact h.scenario_of_not_stepDef hs
  | true =>
    intro ctx
    rw [Scenario.exec_evaluate, if_pos hs]
    split
    · exact h.refl ctx
    · next hr => exact h.registered hr

theorem scenarios (failed : Bool) (ss : List Scenario) :
    Keeps R (evaluateScenarios action failed ss) :=
  h.scenarios_of failed fun s _ => h.scenario s

end ScenarioFrame

namespace FeatureFrame

variable {action : Action σ} (h : FeatureFrame action R)

include h

theorem register (f : Feature) : Keeps R (f.register action) := by
  refine h.bind (h.scenarios _ _) fun ss => ?_
  dsimp only
  split
  · exact h.throw _
  · exact fun ctx => h.loaded ctx _

theorem metas (fs : List Feature) : Keeps R (fs.mapM (Feature.register action)) := by
  induction fs with
  | nil => exact h.refl
  | cons f fs ih =>
    rw [List.mapM_cons]
    exact h.bind (h.register f) fun _ => h.bind ih fun _ => h.pure _

theorem feature (f : Feature) : Keeps R (f.evaluate action) := by
  intro ctx
  rw [Feature.evaluate, exec_get_bind]
  refine h.bind (h.metas _) (fun metas => h.bind (h.scenarios _ _) fun ss => ?_) ctx
  dsimp only
  split
  · exact fun c => h.loaded c _
  · exact h.refl

theorem run (files : FileSystem) (f : Feature) (record : Option Record) :
    Keeps R (f.run action files record) := by
  intro ctx
  rw [Feature.run, exec_get_bind]
  split
  · exact h.refl ctx
  · exact h.feature _ ctx

end FeatureFrame

/-- Nothing changes the options. -/
theorem options_frame (action : Action σ) :
    FeatureFrame action fun ctx c => c.options = ctx.options where
  refl _ := rfl
  trans hab hbc := hbc.trans hab
  unbound _ _ := rfl
  attached _ _ := rfl
  acted _ _ := rfl
  tabled _ h := h
  called _ _ h := h
  registered _ := rfl
  loaded _ _ := rfl

/-- Every call that is made has returned at the end. -/
theorem calls_frame (action : Action σ) :
    FeatureFrame action fun ctx c => c.calls = ctx.calls where
  refl _ := rfl
  trans hab hbc := hbc.trans hab
  unbound _ _ := rfl
  attached _ _ := rfl
  acted _ _ := rfl
  tabled _ h := h
  called _ _ h := congrArg (List.drop 1) h
  registered _ := rfl
  loaded _ _ := rfl

end Gherkin
