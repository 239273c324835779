import Gherkin.Proofs.Failures

/-! Where the outcomes of the moments stand in what an evaluation returns. Those outside all calls
are the steps of the returned feature that were reached, in order, and those inside a call and no
deeper are the steps that were reached in the body that the call recorded. -/
namespace Gherkin

open EvalM

variable {σ : Type} {action : Action σ} {ctx c : Context σ} {room : Nat} {callers : List Caller}

/-- The steps up to the first that failed. Those behind it were skipped. -/
def reachedSteps : List Step → List Step
  | [] => []
  | t :: ts => t :: if t.status.isFailed then [] else reachedSteps ts

/-- In a scenario that is not run no step is reached. -/
def Scenario.reached (t : Scenario) : List Step :=
  if t.isStepDef || t.isIgnored then [] else reachedSteps t.allSteps

/-- With `failFast` no scenario is run after one that failed. -/
def reachedScenarios (failFast : Bool) : List Scenario → List Step
  | [] => []
  | t :: ts =>
    t.reached ++ if failFast && t.status.isFailed then [] else reachedScenarios failFast ts

/-- The steps that were reached in a feature that was evaluated, those of its meta files first. -/
def Feature.reached (failFast : Bool) (f : Feature) : List Step :=
  f.metas.flatMap (fun m => reachedScenarios failFast m.scenarios) ++
    reachedScenarios failFast f.scenarios

/-- What came of the steps that lie inside `n` calls. -/
def outcomesAt (action : Action σ) (n : Nat) (ms : List (Moment σ)) : List (Except EvalError Step) :=
  (ms.filter (·.callers.length == n)).map (·.outcome action)

/-- The steps that a feature returns are what came of its moments: outside all calls, and in the
body that a call recorded. -/
structure Feature.Shows (action : Action σ) (ctx : Context σ) (f done : Feature) : Prop where
  outside : outcomesAt action 0 (f.trace action ctx) =
    (done.reached ctx.options.failFast).map .ok
  inside : ∀ m ∈ f.trace action ctx, ∀ k t, m.move = .call k → m.outcome action = .ok t →
    (∀ n ∈ m.inside action, n ∈ f.trace action ctx) ∧
      ∃ body, t.body = some body ∧ t.status = body.status ∧
        outcomesAt action (m.callers.length + 1) (m.inside action) =
          (reachedSteps body.allSteps).map .ok

theorem outcomesAt_append (n : Nat) (ms ms' : List (Moment σ)) :
    outcomesAt action n (ms ++ ms') = outcomesAt action n ms ++ outcomesAt action n ms' := by
  rw [outcomesAt, List.filter_append, List.map_append]
  rfl

section Calls

/-- What is inside a call, seen from outside it. -/
theorem outcomesAt_called (k : Caller) (s : Scenario) (ctx : Context σ) :
    outcomesAt action callers.length (s.bodyTrace action room (k :: callers) ctx) = [] := by
  rw [outcomesAt, List.map_eq_nil_iff, List.filter_eq_nil_iff]
  intro m hm
  simpa using Nat.ne_of_gt (lt_length_callers hm)

/-- Of the moments of a step only the first does not lie inside a call that it makes. -/
theorem outcomesAt_step (s : Step) :
    outcomesAt action callers.length (s.trace action room callers ctx) =
      [(exec (s.evaluate action room) ctx).1] := by
  by_cases hk : ∃ k, s.move room ctx = .call k
  · obtain ⟨k, hk⟩ := hk
    rw [Step.trace_of_call action hk, ← List.singleton_append, outcomesAt_append,
      outcomesAt_called, List.append_nil]
    simp [outcomesAt, Moment.outcome]
  · rw [Step.trace_of_not_call action (not_exists.mp hk)]
    simp [outcomesAt, Moment.outcome]

theorem outcomesAt_steps {ss ts : List Step}
    (h : exec (evaluateSteps (Step.evaluate action room) ss) ctx = (.ok ts, c)) :
    outcomesAt action callers.length
      (stepsTrace (Step.evaluate action room) (Step.trace action room callers) ss ctx) =
        (reachedSteps ts).map .ok := by
  induction ss generalizing ctx ts with
  | nil =>
    cases h
    rfl
  | cons s ss ih =>
    obtain ⟨t, c₁, ht, ⟨hf, rfl, rfl⟩ | ⟨hf, ts, hts, rfl⟩⟩ := evaluateSteps_cons_ok h <;>
      rw [stepsTrace, Trace.andThen_of_ok ht, outcomesAt_append, outcomesAt_step, ht, hf,
        reachedSteps, hf]
    · rfl
    · rw [if_neg Bool.false_ne_true, if_neg Bool.false_ne_true, ih hts]
      rfl

theorem outcomesAt_body {s t : Scenario} (callers : List Caller)
    (h : exec (s.evaluateBody (Step.evaluate action room)) ctx = (.ok t, c)) :
    outcomesAt action callers.length (s.bodyTrace action room callers ctx) =
      (reachedSteps t.allSteps).map .ok := by
  obtain ⟨ts, hs, rfl⟩ := Scenario.evaluateBody_withSteps h
  rw [Scenario.allSteps_withSteps]
  exact outcomesAt_steps hs

end Calls

/-- Of each call, what lies inside it is there, too. -/
def Trace.Closed (action : Action σ) (t : Trace σ) : Prop :=
  ∀ ctx, ∀ m ∈ t ctx, ∀ n ∈ m.inside action, n ∈ t ctx

namespace Trace.Closed

theorem none : Closed action (.none : Trace σ) :=
  fun _ _ hm => by cases hm

theorem andThen {α : Type} {x : EvalM σ α} {t : Trace σ} {u : α → Trace σ} (ht : t.Closed action)
    (hu : ∀ a, (u a).Closed action) : (t.andThen x u).Closed action := by
  intro ctx m hm n hn
  obtain hm | ⟨a, c, hx, hm⟩ := mem_andThen.mp hm
  · exact mem_andThen.mpr (.inl (ht ctx m hm n hn))
  · exact mem_andThen.mpr (.inr ⟨a, c, hx, hu a c m hm n hn⟩)

end Trace.Closed

theorem closed_step (action : Action σ) :
    Traceable action fun _ _ _ _ t => t.Closed action where
  pure _ := .none
  bind := .andThen
  step {room callers} s hcalled ctx m hm n hn := by
    by_cases hk : ∃ k, s.move room ctx = .call k
    · obtain ⟨k, hk⟩ := hk
      rw [Step.trace_of_call action hk] at hm ⊢
      rcases List.mem_cons.mp hm with rfl | hm
      · rw [Moment.inside, Step.trace_of_call action hk] at hn
        exact List.mem_cons_of_mem _ hn
      · exact List.mem_cons_of_mem _ (hcalled ctx k hk _ m hm n hn)
    · rw [Step.trace_of_not_call action (not_exists.mp hk)] at hm ⊢
      obtain rfl := List.mem_singleton.mp hm
      rw [Moment.inside, Step.trace_of_not_call action (not_exists.mp hk)] at hn
      cases hn

theorem closed_feature (action : Action σ) :
    FeatureTraceable action fun _ _ t => t.Closed action where
  pure _ := .none
  bind := .andThen
  under hf ctx := hf ctx.options ctx
  scenario s ctx := by
    have steps := closed_step action
    unfold Scenario.trace
    split
    · exact Trace.Closed.none ctx
    · exact steps.body (steps.evaluate ctx.room []) s ctx
  unloadable _ _ := .none
  loaded _ := .none

section Features

theorem Scenario.reached_marked {s : Scenario} (h : (s.isStepDef || s.isIgnored) = true)
    (status : Status) : (s.marked status).reached = [] :=
  if_pos h

theorem outcomesAt_scenario {s t : Scenario} (h : exec (s.evaluate action) ctx = (.ok t, c)) :
    outcomesAt action 0 (s.trace action ctx) = t.reached.map .ok := by
  rw [Scenario.exec_evaluate] at h
  unfold Scenario.trace
  cases hs : s.isStepDef with
  | true =>
    rw [if_pos hs] at h
    split at h <;> cases h
    rw [Scenario.reached_marked (by simp [hs])]
    rfl
  | false =>
    rw [if_neg (by simp [hs])] at h
    cases hi : s.isIgnored with
    | true =>
      rw [if_pos hi] at h
      cases h
      rw [Scenario.reached_marked (by simp [hi])]
      rfl
    | false =>
      rw [if_neg (by simp [hi])] at h
      have hbody := outcomesAt_body [] h
      obtain ⟨ts, -, rfl⟩ := Scenario.evaluateBody_withSteps h
      have hrun : ((s.withSteps ts).isStepDef || (s.withSteps ts).isIgnored) = false :=
        Bool.or_eq_false_iff.mpr ⟨hs, hi⟩
      rw [Scenario.reached, hrun]
      exact hbody

theorem outcomesAt_scenarios {failed : Bool} {ss ts : List Scenario}
    (h : exec (evaluateScenarios action failed ss) ctx = (.ok ts, c)) :
    outcomesAt action 0 (scenariosTrace action failed ss ctx) =
      (if failed && ctx.options.failFast then []
        else reachedScenarios ctx.options.failFast ts).map .ok := by
  induction ss generalizing failed ctx ts with
  | nil =>
    cases h
    cases failed && c.options.failFast <;> rfl
  | cons s ss ih =>
    rw [exec_evaluateScenarios_cons] at h
    unfold scenariosTrace Trace.under
    dsimp only
    split at h
    · next hexit =>
      cases h
      rw [if_pos hexit]
      cases failed && c.options.failFast <;> rfl
    · next hexit =>
      rw [if_neg hexit]
      split at h
      · next hfast =>
        rw [if_pos hfast, if_pos hfast]
        rfl
      · next hfast =>
        have hoptions := (options_frame action).scenario s ctx
        rcases hd : exec (s.evaluate action) ctx with ⟨_ | t, c₁⟩ <;> rw [hd] at h hoptions
        · cases h
        dsimp only at h hoptions
        rcases hrest : exec (evaluateScenarios action (failed || t.status.isFailed) ss) c₁
          with ⟨_ | ts, c₂⟩ <;> rw [hrest] at h <;> cases h
        have hskip : ((failed || t.status.isFailed) && ctx.options.failFast) =
            (ctx.options.failFast && t.status.isFailed) := by
          cases failed <;> simp_all [Bool.and_comm]
        rw [if_neg hfast, if_neg hfast, Trace.andThen_of_ok hd, outcomesAt_append,
          outcomesAt_scenario hd, ih hrest, hoptions, hskip, reachedScenarios, List.map_append]

theorem outcomesAt_metas {fs done : List Feature}
    (h : exec (fs.mapM (Feature.register action)) ctx = (.ok done, c)) :
    outcomesAt action 0 (metasTrace action fs ctx) =
      (done.flatMap fun m => reachedScenarios ctx.options.failFast m.scenarios).map .ok := by
  induction fs generalizing ctx done with
  | nil =>
    cases h
    rfl
  | cons f fs ih =>
    rw [List.mapM_cons] at h
    obtain ⟨d, c₁, hd, h⟩ := exec_bind_ok.mp h
    obtain ⟨ds, c₂, hds, h⟩ := exec_bind_ok.mp h
    cases h
    have hoptions := (options_frame action).register f ctx
    rw [hd] at hoptions
    obtain ⟨ts, c', hts, rfl, -, -⟩ := Feature.register_ok hd
    rw [metasTrace, Trace.andThen_of_ok hd, outcomesAt_append, outcomesAt_scenarios hts, ih hds,
      hoptions, List.flatMap_cons, List.map_append, Bool.false_and]
    rfl

end Features

/-- What a feature returns is what came of its moments. -/
theorem feature_shows {f : Feature} {r : Feature.Result}
    (h : exec (f.evaluate action) ctx = (.ok r, c)) : f.Shows action ctx r.feature where
  outside := by
    obtain ⟨metas, c₁, scenarios, c₂, hm, hs, hf, -, -⟩ := Feature.evaluate_ok h
    have hoptions := (options_frame action).metas f.metas ctx
    rw [hm] at hoptions
    rw [Feature.trace, Trace.andThen_of_ok hm, outcomesAt_append, outcomesAt_metas hm,
      outcomesAt_scenarios hs, hoptions, Bool.false_and, hf, Feature.reached, List.map_append]
    rfl
  inside m hm k t hk ht := by
    refine ⟨(closed_feature action).parts f ctx m hm, ?_⟩
    rw [Moment.outcome, Step.exec_of_call action hk] at ht
    rcases hb : exec (k.found.stepDef.evaluateBody (Step.evaluate action (m.room - 1)))
      (m.context.entering m.step k) with ⟨_ | body, c⟩ <;> rw [hb] at ht <;> cases ht
    refine ⟨body, rfl, rfl, ?_⟩
    rw [Moment.inside, Step.trace_of_call action hk]
    exact outcomesAt_body (k :: m.callers) hb

end Gherkin
