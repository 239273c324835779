import Gherkin.Evaluate
import Gherkin.Proofs.Verdict

/-! Running an evaluation from a given context. Each part of the evaluation of a step has one
equation that tells its outcome and the context it leaves; later modules use these and no
definition below them. -/
namespace Gherkin

variable {σ α β : Type}

namespace EvalM

/-- The outcome of `x` in a context, and the context it leaves. -/
def exec (x : EvalM σ α) (ctx : Context σ) : Except EvalError α × Context σ :=
  Id.run (x.run.run ctx)

theorem ext {x y : EvalM σ α} (h : ∀ ctx, exec x ctx = exec y ctx) : x = y :=
  funext h

variable (ctx : Context σ)

@[simp] theorem exec_pure (a : α) : exec (pure a) ctx = (.ok a, ctx) := rfl

@[simp] theorem exec_get : exec get ctx = (.ok ctx, ctx) := rfl

theorem exec_bind (x : EvalM σ α) (f : α → EvalM σ β) :
    exec (x >>= f) ctx = match exec x ctx with
      | (.ok a, c) => exec (f a) c
      | (.error e, c) => (.error e, c) := by
  simp only [exec, ExceptT.run_bind, StateT.run_bind]
  rcases h : Id.run (x.run.run ctx) with ⟨_ | a, c⟩ <;> simp_all

@[simp] theorem exec_get_bind (f : Context σ → EvalM σ α) :
    exec (get >>= f) ctx = exec (f ctx) ctx := rfl

@[simp] theorem exec_set_bind (c : Context σ) (f : Unit → EvalM σ α) :
    exec (set c >>= f) ctx = exec (f ()) c := rfl

@[simp] theorem exec_modify_bind (g : Context σ → Context σ) (f : Unit → EvalM σ α) :
    exec (modify g >>= f) ctx = exec (f ()) (g ctx) := rfl

theorem exec_bind_pure (x : EvalM σ α) (f : α → β) :
    exec (do return f (← x)) ctx = ((exec x ctx).1.map f, (exec x ctx).2) := by
  rw [exec_bind]
  rcases exec x ctx with ⟨_ | a, c⟩ <;> rfl

@[simp] theorem exec_map (x : EvalM σ α) (f : α → β) :
    exec (f <$> x) ctx = ((exec x ctx).1.map f, (exec x ctx).2) := by
  rw [← bind_pure_comp]
  exact exec_bind_pure ctx x f

theorem exec_bind_ok {ctx c : Context σ} {x : EvalM σ α} {f : α → EvalM σ β} {b : β} :
    exec (x >>= f) ctx = (.ok b, c) ↔
      ∃ a c₁, exec x ctx = (.ok a, c₁) ∧ exec (f a) c₁ = (.ok b, c) := by
  rw [exec_bind]
  rcases exec x ctx with ⟨_ | a, c₁⟩
  · simp
  · exact ⟨fun h => ⟨a, c₁, rfl, h⟩, by rintro ⟨_, _, ⟨⟩, h⟩; exact h⟩

end EvalM

open EvalM

namespace Context

/-- With the table of a step bound. -/
def tabled (table : List (List String)) (ctx : Context σ) : Context σ :=
  { ctx with scopes := ctx.scopes.bindObject tableObject (.arr (table.map Json.strings)) }

/-- With the table of a step cleared again. -/
def untabled (ctx : Context σ) : Context σ :=
  { ctx with scopes := ctx.scopes.clearObject tableObject }

/-- In the context in which a step is carried out. -/
def atStep (s : Step) (ctx : Context σ) : Context σ :=
  if s.table.isEmpty then ctx else ctx.tabled s.table

theorem registry_atStep (s : Step) (ctx : Context σ) : (ctx.atStep s).registry = ctx.registry := by
  unfold atStep
  split <;> rfl

theorem calls_atStep (s : Step) (ctx : Context σ) : (ctx.atStep s).calls = ctx.calls := by
  unfold atStep
  split <;> rfl

/-- After a step that was carried out. -/
def afterStep (s : Step) (ctx : Context σ) : Context σ :=
  if s.table.isEmpty then ctx else ctx.untabled

/-- Where the body of a step definition begins. -/
def entered (frame : Frame) (params : Pairs) (ctx : Context σ) : Context σ :=
  ({ ctx with
      calls := frame :: ctx.calls
      scopes := ctx.scopes.push { name := Scope.stepDefName, bindings := params } }).note
    (.called (frame :: ctx.calls))

/-- What a call that began at a depth leaves of the context in which its body ended. -/
def left (depth : Nat) (ctx : Context σ) : Context σ :=
  { ctx with scopes := ctx.scopes.truncate depth, calls := ctx.calls.drop 1 }

/-- After an action. -/
def acted (action : Action σ) (expression : String) (ctx : Context σ) : Context σ :=
  let done := action expression ctx.settings ctx.scopes ctx.state
  ({ ctx with scopes := done.scopes, state := done.state }).note
    (.performed expression (ctx.scopes.objects.get? tableObject) done.result done.elapsed)

/-- No policy stops a run after a failure. -/
def RunsAll (ctx : Context σ) : Prop :=
  ctx.options.failFast = false ∧ ctx.options.exitOnFail = false

/-- After a step that failed left its attachments. -/
def attached (cause : String) (ctx : Context σ) : Context σ :=
  { ctx with store := (exec (Step.attachFailure cause) ctx).2.store }

/-- A change of the context that neither a failure nor an action can tell. -/
structure Unseen (g : Context σ → Context σ) : Prop where
  scopes : ∀ ctx, (g ctx).scopes = ctx.scopes
  settings : ∀ ctx, (g ctx).settings = ctx.settings
  state : ∀ ctx, (g ctx).state = ctx.state
  store : ∀ ctx, (g ctx).store = ctx.store
  dryRun : ∀ ctx, (g ctx).options.dryRun = ctx.options.dryRun
  stored : ∀ ctx store, { g ctx with store } = g { ctx with store }
  acted : ∀ action ctx expression,
    (g ctx).acted action expression = g (ctx.acted action expression)

end Context

namespace Step

variable (action : Action σ) (call : Step → String → Registry.Resolved → EvalM σ Step)
  (s : Step) (expression : String) (ctx : Context σ)

theorem exec_fail (elapsed : Duration) (cause : String) :
    ∃ attachments, exec (s.fail elapsed cause) ctx =
      (.ok { s with status := .failed elapsed cause, attachments }, ctx.attached cause) :=
  ⟨_, rfl⟩

theorem exec_perform :
    exec (s.perform action expression) ctx =
      if ctx.options.dryRun then (.ok (s.marked (.passed Duration.zero)), ctx)
      else
        let done := action expression ctx.settings ctx.scopes ctx.state
        match done.result with
        | .ok () => (.ok (s.marked (.passed done.elapsed)), ctx.acted action expression)
        | .error fault =>
          exec (s.fail done.elapsed fault.message) (ctx.acted action expression) := by
  simp only [perform, exec_get_bind]
  split
  · rfl
  · simp only [exec_set_bind]
    cases h : (action expression ctx.settings ctx.scopes ctx.state).result <;>
      simp [Context.acted, h]

theorem exec_fail_unseen {g : Context σ → Context σ} (h : Context.Unseen g) (elapsed : Duration)
    (cause : String) :
    exec (s.fail elapsed cause) (g ctx) =
      ((exec (s.fail elapsed cause) ctx).1, g (exec (s.fail elapsed cause) ctx).2) := by
  have hattached : (exec (attachFailure cause) (g ctx)).1 = (exec (attachFailure cause) ctx).1 ∧
      (exec (attachFailure cause) (g ctx)).2.store = (exec (attachFailure cause) ctx).2.store := by
    simp only [attachFailure, exec_get_bind, exec_set_bind, exec_pure, h.scopes, h.store, and_self]
  have hcontext : (g ctx).attached cause = g (ctx.attached cause) := by
    rw [Context.attached, hattached.2, h.stored]
    rfl
  rw [fail, exec_bind_pure, exec_bind_pure, hattached.1]
  exact congrArg (Prod.mk _) hcontext

theorem exec_perform_unseen {g : Context σ → Context σ} (h : Context.Unseen g) :
    exec (s.perform action expression) (g ctx) =
      ((exec (s.perform action expression) ctx).1,
        g (exec (s.perform action expression) ctx).2) := by
  simp only [exec_perform, h.dryRun, h.settings, h.scopes, h.state, h.acted]
  split
  · rfl
  · split
    · rfl
    · exact exec_fail_unseen s _ h _ _

theorem exec_call (run : Scenario → EvalM σ Scenario) (found : Registry.Resolved) :
    exec (s.call run expression found) ctx =
      let frame : Frame := { name := found.stepDef.name, expression }
      if ctx.calls.contains frame then (.error (recursion found.stepDef expression), ctx)
      else
        let body := exec (run found.stepDef) (ctx.entered frame found.params)
        (body.1.map fun body => { s with status := body.status, body := some body },
          body.2.left ctx.scopes.depth) := by
  simp only [call, exec_get_bind]
  split
  · rfl
  · exact exec_bind_pure ctx (ensuring _ _) _

theorem exec_carryOut :
    exec (s.carryOut action call expression) ctx =
      match ctx.registry.resolve expression with
      | .error fault => (.error (.stepDef fault), ctx)
      | .ok (some found) => exec (call s expression found) ctx
      | .ok none => exec (s.perform action expression) ctx := by
  simp only [carryOut, exec_get_bind]
  rcases ctx.registry.resolve expression with _ | _ | _ <;> rfl

theorem exec_withTable (x : EvalM σ α) :
    exec (s.withTable x) ctx =
      if s.table.isEmpty then exec x ctx
      else ((exec x (ctx.tabled s.table)).1, (exec x (ctx.tabled s.table)).2.untabled) := by
  unfold withTable
  split <;> rfl

theorem exec_withTable_atStep (x : EvalM σ α) :
    exec (s.withTable x) ctx =
      ((exec x (ctx.atStep s)).1, (exec x (ctx.atStep s)).2.afterStep s) := by
  rw [exec_withTable]
  unfold Context.atStep Context.afterStep
  split <;> rfl

theorem exec_evaluateWith :
    exec (s.evaluateWith action call) ctx =
      match Reference.interpolate ctx.resolve s.expression with
      | .error fault => exec (s.fail Duration.zero fault.message) (ctx.note (.unbound fault))
      | .ok expression => exec (s.withTable (s.carryOut action call expression)) ctx := by
  simp only [evaluateWith, exec_get_bind]
  cases Reference.interpolate ctx.resolve s.expression <;> simp only [exec_modify_bind]

variable {action s expression ctx}

/-- A step that no step definition stands for is performed. -/
theorem exec_evaluate_literal {room : Nat}
    (hi : Reference.interpolate ctx.resolve s.expression = .ok expression) (ht : s.table = [])
    (hr : ctx.registry.resolve expression = .ok none) :
    exec (s.evaluate action room) ctx = exec (s.perform action expression) ctx := by
  cases room <;> rw [evaluate, exec_evaluateWith, hi] <;>
    simp [exec_withTable, ht, exec_carryOut, hr]

end Step

variable (action : Action σ) (evaluate : Step → EvalM σ Step) (ctx : Context σ)

theorem exec_evaluateSteps_cons (s : Step) (ss : List Step) :
    exec (evaluateSteps evaluate (s :: ss)) ctx =
      match exec (evaluate s) ctx with
      | (.error e, c) => (.error e, c)
      | (.ok done, c) =>
        if done.status.isFailed then (.ok (done :: ss.map (·.marked .skipped)), c)
        else
          let rest := exec (evaluateSteps evaluate ss) c
          (rest.1.map (done :: ·), rest.2) := by
  rw [evaluateSteps, exec_bind]
  rcases exec (evaluate s) ctx with ⟨_ | done, c⟩
  · rfl
  · dsimp only
    split
    · rfl
    · exact exec_bind_pure c _ _

theorem evaluateSteps_cons_ok {evaluate : Step → EvalM σ Step} {ctx c : Context σ} {s : Step}
    {ss done : List Step} (h : exec (evaluateSteps evaluate (s :: ss)) ctx = (.ok done, c)) :
    ∃ t c₁, exec (evaluate s) ctx = (.ok t, c₁) ∧
      ((t.status.isFailed = true ∧ done = t :: ss.map (·.marked .skipped) ∧ c = c₁) ∨
        (t.status.isFailed = false ∧
          ∃ ts, exec (evaluateSteps evaluate ss) c₁ = (.ok ts, c) ∧ done = t :: ts)) := by
  rw [evaluateSteps, exec_bind_ok] at h
  obtain ⟨t, c₁, ht, h⟩ := h
  refine ⟨t, c₁, ht, ?_⟩
  split at h
  · next hf =>
    cases h
    exact .inl ⟨hf, rfl, rfl⟩
  · next hf =>
    obtain ⟨ts, c₂, hts, h⟩ := exec_bind_ok.mp h
    cases h
    exact .inr ⟨by simpa using hf, ts, hts, rfl⟩

theorem length_of_evaluateSteps {evaluate : Step → EvalM σ Step} {ctx c : Context σ}
    {ss done : List Step} (h : exec (evaluateSteps evaluate ss) ctx = (.ok done, c)) :
    done.length = ss.length := by
  induction ss generalizing ctx done with
  | nil =>
    cases h
    rfl
  | cons s ss ih =>
    obtain ⟨t, c₁, -, ⟨-, rfl, -⟩ | ⟨-, ts, hts, rfl⟩⟩ := evaluateSteps_cons_ok h
    · simp
    · simp [ih hts]

/-- Further steps are evaluated only if none of those before them failed. -/
theorem exec_evaluateSteps_append (evaluate : Step → EvalM σ Step) (ctx : Context σ)
    (ss ss' : List Step) :
    exec (evaluateSteps evaluate (ss ++ ss')) ctx =
      match exec (evaluateSteps evaluate ss) ctx with
      | (.error e, c) => (.error e, c)
      | (.ok done, c) =>
        if done.any (·.status.isFailed) then (.ok (done ++ ss'.map (·.marked .skipped)), c)
        else
          ((exec (evaluateSteps evaluate ss') c).1.map (done ++ ·),
            (exec (evaluateSteps evaluate ss') c).2) := by
  induction ss generalizing ctx with
  | nil =>
    rcases h : exec (evaluateSteps evaluate ss') ctx with ⟨_ | rest, c⟩ <;>
      simp [evaluateSteps, h, Except.map]
  | cons s ss ih =>
    rw [List.cons_append, exec_evaluateSteps_cons, exec_evaluateSteps_cons]
    rcases exec (evaluate s) ctx with ⟨_ | t, c⟩
    · rfl
    · dsimp only
      rw [ih]
      rcases exec (evaluateSteps evaluate ss) c with ⟨_ | done, c'⟩
      · cases ht : t.status.isFailed <;> simp [ht, Except.map]
      · cases ht : t.status.isFailed with
        | true => simp [ht]
        | false =>
          cases hd : done.any (·.status.isFailed) with
          | true => simp [ht, hd, Except.map]
          | false =>
            simp only [List.any_cons, ht, hd, Bool.or_self, Bool.false_eq_true, if_false,
              Except.map]
            cases (exec (evaluateSteps evaluate ss') c').1 <;> rfl

namespace Scenario

variable {s done : Scenario} {evaluate : Step → EvalM σ Step} {ctx c : Context σ}

/-- A body without a background runs its steps. One with a background runs that first, and its own
steps only if the background did not fail. -/
theorem evaluateBody_ok (h : exec (s.evaluateBody evaluate) ctx = (.ok done, c)) :
    (s.background = none ∧
      ∃ steps, exec (evaluateSteps evaluate s.steps) ctx = (.ok steps, c) ∧
        done = { s with steps }) ∨
    ∃ b bs c₁, s.background = some b ∧ exec (evaluateSteps evaluate b.steps) ctx = (.ok bs, c₁) ∧
      (({ b with steps := bs }.status.isFailed = true ∧ c = c₁ ∧
          done = { s with background := some { b with steps := bs }
                          steps := s.steps.map (·.marked .skipped) }) ∨
        ({ b with steps := bs }.status.isFailed = false ∧
          ∃ steps, exec (evaluateSteps evaluate s.steps) c₁ = (.ok steps, c) ∧
            done = { s with background := some { b with steps := bs }, steps })) := by
  unfold evaluateBody at h
  split at h
  · next hb =>
    obtain ⟨steps, c₁, hs, h⟩ := exec_bind_ok.mp h
    cases h
    exact .inl ⟨hb, steps, hs, rfl⟩
  · next b hb =>
    obtain ⟨bs, c₁, hbs, h⟩ := exec_bind_ok.mp h
    refine .inr ⟨b, bs, c₁, hb, hbs, ?_⟩
    dsimp only at h
    split at h
    · next hf =>
      cases h
      exact .inl ⟨hf, rfl, rfl⟩
    · next hf =>
      obtain ⟨steps, c₂, hs, h⟩ := exec_bind_ok.mp h
      cases h
      exact .inr ⟨by simpa using hf, steps, hs, rfl⟩

/-- The scenario with other steps, those of the background in front. -/
def withSteps (s : Scenario) (steps : List Step) : Scenario :=
  { s with
    background := s.background.map fun b => { b with steps := steps.take b.steps.length }
    steps := steps.drop s.backgroundSteps.length }

@[simp] theorem allSteps_withSteps (s : Scenario) (steps : List Step) :
    (s.withSteps steps).allSteps = steps := by
  cases hb : s.background <;> simp [allSteps, backgroundSteps, withSteps, hb]

/-- A body runs the steps of the background and its own as one list. -/
theorem evaluateBody_eq (evaluate : Step → EvalM σ Step) (s : Scenario) :
    s.evaluateBody evaluate = s.withSteps <$> evaluateSteps evaluate s.allSteps := by
  refine EvalM.ext fun ctx => ?_
  rw [exec_map]
  unfold evaluateBody
  split
  · next hb =>
    have hall : s.allSteps = s.steps := by simp [allSteps, backgroundSteps, hb]
    have hwith : s.withSteps = fun steps => { s with steps } := by
      simp [funext_iff, withSteps, backgroundSteps, hb]
    rw [hall, exec_bind_pure, hwith]
  · next b hb =>
    have hall : s.allSteps = b.steps ++ s.steps := by simp [allSteps, backgroundSteps, hb]
    rw [hall, exec_evaluateSteps_append, exec_bind]
    rcases h : exec (evaluateSteps evaluate b.steps) ctx with ⟨_ | bs, c⟩
    · rfl
    have hlen := length_of_evaluateSteps h
    have hfailed : ({ b with steps := bs } : Background).status.isFailed =
        bs.any (·.status.isFailed) := by
      rw [Bool.eq_iff_iff, Background.status, Status.isFailed_fold, List.any_eq_true]
      exact ⟨fun ⟨_, hp, hf⟩ => let ⟨t, ht, he⟩ := List.mem_map.mp hp; ⟨t, ht, he ▸ hf⟩,
        fun ⟨t, ht, hf⟩ => ⟨_, List.mem_map_of_mem ht, hf⟩⟩
    dsimp only
    rw [hfailed]
    split
    · simp [Except.map, withSteps, backgroundSteps, hb, ← hlen]
    · rw [exec_bind_pure]
      rcases exec (evaluateSteps evaluate s.steps) c with ⟨_ | done, c'⟩
      · rfl
      · simp [Except.map, withSteps, backgroundSteps, hb, ← hlen]

theorem evaluateBody_withSteps (h : exec (s.evaluateBody evaluate) ctx = (.ok done, c)) :
    ∃ steps, exec (evaluateSteps evaluate s.allSteps) ctx = (.ok steps, c) ∧
      done = s.withSteps steps := by
  rw [evaluateBody_eq, exec_map] at h
  rcases hs : exec (evaluateSteps evaluate s.allSteps) ctx with ⟨_ | steps, c₁⟩ <;> rw [hs] at h <;>
    cases h
  exact ⟨steps, rfl, rfl⟩

theorem exec_evaluate (action : Action σ) (s : Scenario) (ctx : Context σ) :
    exec (s.evaluate action) ctx =
      if s.isStepDef then
        match ctx.registry.add s with
        | .error fault => (.error (.stepDef fault), ctx)
        | .ok registry => (.ok (s.marked .loaded), { ctx with registry })
      else if s.isIgnored then (.ok (s.marked .skipped), ctx)
      else exec (s.evaluateBody (Step.evaluate action ctx.room)) ctx := by
  simp only [evaluate, exec_get_bind]
  split
  · cases ctx.registry.add s <;> rfl
  · split <;> rfl

end Scenario

theorem exec_evaluateScenarios_cons (failed : Bool) (s : Scenario) (ss : List Scenario) :
    exec (evaluateScenarios action failed (s :: ss)) ctx =
      if failed && ctx.options.exitOnFail then (.ok [], ctx)
      else if failed && ctx.options.failFast then (.ok ((s :: ss).map (·.marked .skipped)), ctx)
      else match exec (s.evaluate action) ctx with
        | (.error e, c) => (.error e, c)
        | (.ok done, c) =>
          let rest := exec (evaluateScenarios action (failed || done.status.isFailed) ss) c
          (rest.1.map (done :: ·), rest.2) := by
  rw [evaluateScenarios, exec_get_bind]
  by_cases he : (failed && ctx.options.exitOnFail) = true
  · simp [he]
  · by_cases hf : (failed && ctx.options.failFast) = true
    · simp [he, hf]
    · simp only [he, hf, Bool.false_eq_true, if_false]
      rw [exec_bind]
      rcases exec (s.evaluate action) ctx with ⟨_ | done, c⟩
      · rfl
      · exact exec_bind_pure c _ _

theorem exec_evaluateScenarios_of_runsAll {ctx : Context σ} (h : ctx.RunsAll) (failed : Bool)
    (s : Scenario) (ss : List Scenario) :
    exec (evaluateScenarios action failed (s :: ss)) ctx =
      match exec (s.evaluate action) ctx with
      | (.error e, c) => (.error e, c)
      | (.ok done, c) =>
        let rest := exec (evaluateScenarios action (failed || done.status.isFailed) ss) c
        (rest.1.map (done :: ·), rest.2) := by
  rw [exec_evaluateScenarios_cons, if_neg (by simp [h.2]), if_neg (by simp [h.1])]

theorem evaluateScenarios_cons_ok {action : Action σ} {ctx c : Context σ} (h : ctx.RunsAll)
    {failed : Bool} {s : Scenario} {ss done : List Scenario}
    (hx : exec (evaluateScenarios action failed (s :: ss)) ctx = (.ok done, c)) :
    ∃ t c₁ ts, exec (s.evaluate action) ctx = (.ok t, c₁) ∧
      exec (evaluateScenarios action (failed || t.status.isFailed) ss) c₁ = (.ok ts, c) ∧
      done = t :: ts := by
  rw [exec_evaluateScenarios_of_runsAll action h] at hx
  rcases hs : exec (s.evaluate action) ctx with ⟨_ | t, c₁⟩ <;> rw [hs] at hx
  · cases hx
  · dsimp only at hx
    rcases hss : exec (evaluateScenarios action (failed || t.status.isFailed) ss) c₁ with
      ⟨_ | ts, c₂⟩ <;> rw [hss] at hx <;> cases hx
    exact ⟨t, c₁, ts, rfl, hss, rfl⟩

namespace Feature

variable {action : Action σ} {f done : Feature} {r : Result} {ctx c : Context σ}

theorem register_ok (h : exec (f.register action) ctx = (.ok done, c)) :
    ∃ scenarios c₁, exec (evaluateScenarios action false f.scenarios) ctx = (.ok scenarios, c₁) ∧
      done = { f with scenarios } ∧ done.status.cause? = none ∧
      c = { c₁ with loaded := c₁.loaded.insert (f.file.getD "") } := by
  obtain ⟨scenarios, c₁, hs, h⟩ := exec_bind_ok.mp h
  dsimp only at h
  split at h
  · cases h
  · next hc =>
    cases h
    exact ⟨scenarios, c₁, hs, rfl, hc, rfl⟩

theorem register_error {e : EvalError} (h : exec (f.register action) ctx = (.error e, c)) :
    c = (exec (evaluateScenarios action false f.scenarios) ctx).2 := by
  rw [register, exec_bind] at h
  rcases hs : exec (evaluateScenarios action false f.scenarios) ctx with ⟨_ | scenarios, c₁⟩
  · rw [hs] at h
    cases h
    rfl
  · rw [hs] at h
    dsimp only at h
    split at h
    · cases h
      rfl
    · cases h

/-- What comes of a feature once its meta files and scenarios are evaluated. -/
def result (f : Feature) (before : Nat) (parts : List Feature × List Scenario) (c : Context σ) :
    Result :=
  let done := { f with scenarios := parts.2, metas := parts.1 }
  { feature := done
    status := done.status
    elapsed := elapsed (c.journal.drop before)
    attachments := c.store.list }

/-- The context at the end of a feature: a meta file counts as loaded. -/
def concluded (f : Feature) (c : Context σ) : Context σ :=
  if f.isMeta then { c with loaded := f.file.elim c.loaded c.loaded.insert } else c

theorem concluded_of_not_meta (hf : f.isMeta = false) (c : Context σ) : f.concluded c = c := by
  simp [concluded, hf]

/-- The meta files of a feature and then its scenarios. -/
def evaluateParts (action : Action σ) (f : Feature) : EvalM σ (List Feature × List Scenario) := do
  let metas ← f.metas.mapM (register action)
  return (metas, ← evaluateScenarios action false f.scenarios)

theorem evaluateParts_ok {parts : List Feature × List Scenario} :
    exec (f.evaluateParts action) ctx = (.ok parts, c) ↔
      ∃ c₁, exec (f.metas.mapM (register action)) ctx = (.ok parts.1, c₁) ∧
        exec (evaluateScenarios action false f.scenarios) c₁ = (.ok parts.2, c) := by
  rw [evaluateParts, exec_bind_ok]
  constructor
  · rintro ⟨metas, c₁, hm, h⟩
    obtain ⟨scenarios, c₂, hs, h⟩ := exec_bind_ok.mp h
    cases h
    exact ⟨c₁, hm, hs⟩
  · rintro ⟨c₁, hm, hs⟩
    exact ⟨_, c₁, hm, exec_bind_ok.mpr ⟨_, c, hs, rfl⟩⟩

theorem exec_evaluate (action : Action σ) (f : Feature) (ctx : Context σ) :
    exec (f.evaluate action) ctx =
      match exec (f.evaluateParts action) ctx with
      | (.error e, c) => (.error e, c)
      | (.ok parts, c) => (.ok (f.result ctx.journal.length parts c), f.concluded c) := by
  rw [evaluate, evaluateParts, exec_get_bind, exec_bind, exec_bind]
  rcases exec (f.metas.mapM (register action)) ctx with ⟨_ | metas, c₁⟩
  · rfl
  · dsimp only
    rw [exec_bind, exec_bind]
    rcases exec (evaluateScenarios action false f.scenarios) c₁ with ⟨_ | scenarios, c₂⟩
    · rfl
    · dsimp only
      unfold concluded
      split <;> rfl

/-- An evaluation that ends well has evaluated the meta files and then the scenarios. -/
theorem evaluate_ends (h : exec (f.evaluate action) ctx = (.ok r, c)) :
    ∃ metas c₁ scenarios c₂, exec (f.metas.mapM (register action)) ctx = (.ok metas, c₁) ∧
      exec (evaluateScenarios action false f.scenarios) c₁ = (.ok scenarios, c₂) ∧
      r = f.result ctx.journal.length (metas, scenarios) c₂ ∧ c = f.concluded c₂ := by
  rw [exec_evaluate] at h
  rcases hp : exec (f.evaluateParts action) ctx with ⟨_ | parts, c₂⟩ <;> rw [hp] at h <;> cases h
  obtain ⟨c₁, hm, hs⟩ := evaluateParts_ok.mp hp
  exact ⟨parts.1, c₁, parts.2, c₂, hm, hs, rfl, rfl⟩

theorem evaluate_ok (h : exec (f.evaluate action) ctx = (.ok r, c)) :
    ∃ metas c₁ scenarios c₂, exec (f.metas.mapM (register action)) ctx = (.ok metas, c₁) ∧
      exec (evaluateScenarios action false f.scenarios) c₁ = (.ok scenarios, c₂) ∧
      r.feature = { f with scenarios, metas } ∧ r.status = r.feature.status ∧
      ∃ loaded, c = { c₂ with loaded } := by
  obtain ⟨metas, c₁, scenarios, c₂, hm, hs, rfl, rfl⟩ := evaluate_ends h
  refine ⟨metas, c₁, scenarios, c₂, hm, hs, rfl, rfl, ?_⟩
  unfold concluded
  split
  · exact ⟨_, rfl⟩
  · exact ⟨c₂.loaded, rfl⟩

theorem run_ok {files : FileSystem} {record : Option Record} :
    exec (f.run action files record) ctx = (.ok r, c) ↔
      ∃ n, f.normalize files ctx.loaded record = .ok n ∧
        exec (n.evaluate action) ctx = (.ok r, c) := by
  rw [run, exec_get_bind]
  cases f.normalize files ctx.loaded record with
  | error fault =>
    constructor
    · rintro ⟨⟩
    · rintro ⟨_, ⟨⟩, _⟩
  | ok n =>
    constructor
    · exact fun h => ⟨n, rfl, h⟩
    · rintro ⟨_, ⟨⟩, h⟩
      exact h

end Feature

end Gherkin
