import Gherkin.Proofs.Failures

/-! Contexts that do not differ in what evaluation reads. With an action that depends on nothing else
either, an evaluation does the same in both, but for the time it takes and the files it attaches. -/
namespace Gherkin

open EvalM

variable {σ α β γ δ : Type} {action : Action σ} {before before' : List Event}
  {ctx ctx' c c' : Context σ}

mutual

/-- The step with nothing but its verdict, and so in its body: no attachments, and no times. -/
def Step.verdicts : Step → Step
  | ⟨keyword, expression, pos, table, status, _, body⟩ =>
    ⟨keyword, expression, pos, table, status.untimed, [], Scenario.bodyVerdicts body⟩

def Scenario.bodyVerdicts : Option Scenario → Option Scenario
  | none => none
  | some s => some s.verdicts

def Step.listVerdicts : List Step → List Step
  | [] => []
  | s :: ss => s.verdicts :: Step.listVerdicts ss

def Background.verdicts : Background → Background
  | ⟨name, description, steps⟩ => ⟨name, description, Step.listVerdicts steps⟩

def Background.optionVerdicts : Option Background → Option Background
  | none => none
  | some b => some b.verdicts

/-- The examples stay, since evaluation does not touch them. -/
def Scenario.verdicts : Scenario → Scenario
  | ⟨tags, name, description, background, steps, isOutline, examples, metaFile, pos⟩ =>
    ⟨tags, name, description, Background.optionVerdicts background, Step.listVerdicts steps,
      isOutline, examples, metaFile, pos⟩

end

/-- What was noted, without the time it took. -/
def Event.untimed : Event → Event
  | .performed expression table result _ => .performed expression table result Duration.zero
  | e => e

namespace Step

theorem listVerdicts_eq (ss : List Step) : listVerdicts ss = ss.map verdicts := by
  induction ss with
  | nil => rfl
  | cons s ss ih => rw [listVerdicts, ih, List.map_cons]

theorem verdicts_eq (s : Step) : s.verdicts =
    { s with status := s.status.untimed, attachments := [], body := s.body.map (·.verdicts) } := by
  rcases s with ⟨_, _, _, _, _, _, _ | body⟩ <;> rfl

@[simp] theorem status_verdicts (s : Step) : s.verdicts.status = s.status.untimed := by
  rw [verdicts_eq]

theorem verdicts_marked (s : Step) {a b : Status} (h : a.untimed = b.untimed) :
    (s.marked a).verdicts = (s.marked b).verdicts := by
  rw [verdicts_eq, verdicts_eq]
  simp only [marked, h]

theorem isFailed_of_verdicts {s t : Step} (h : s.verdicts = t.verdicts) :
    s.status.isFailed = t.status.isFailed := by
  rw [← Status.isFailed_untimed, ← status_verdicts, h, status_verdicts, Status.isFailed_untimed]

end Step

namespace Scenario

theorem verdicts_eq (s : Scenario) : s.verdicts =
    { s with
      background := s.background.map fun b => { b with steps := b.steps.map (·.verdicts) }
      steps := s.steps.map (·.verdicts) } := by
  rcases s with ⟨_, _, _, _ | ⟨_, _, bs⟩, steps, _, _, _, _⟩ <;>
    simp [verdicts, Background.optionVerdicts, Background.verdicts, Step.listVerdicts_eq]

theorem allSteps_verdicts (s : Scenario) : s.verdicts.allSteps = s.allSteps.map (·.verdicts) := by
  rw [verdicts_eq]
  cases hb : s.background <;> simp [allSteps, backgroundSteps, hb]

theorem verdicts_withSteps (s : Scenario) (ss : List Step) :
    (s.withSteps ss).verdicts = s.withSteps (ss.map (·.verdicts)) := by
  rw [verdicts_eq]
  cases hb : s.background <;> simp [withSteps, hb]

/-- What a scenario comes to rests on nothing but what its steps come to. -/
theorem untimed_status_verdicts (s : Scenario) : s.verdicts.status.untimed = s.status.untimed := by
  refine Status.untimed_fold ?_
  rw [allSteps_verdicts]
  simp [Function.comp_def]

theorem status_of_verdicts {s t : Scenario} (h : s.verdicts = t.verdicts) :
    s.status.untimed = t.status.untimed := by
  rw [← untimed_status_verdicts, h, untimed_status_verdicts]

theorem isFailed_of_verdicts {s t : Scenario} (h : s.verdicts = t.verdicts) :
    s.status.isFailed = t.status.isFailed := by
  rw [← Status.isFailed_untimed, status_of_verdicts h, Status.isFailed_untimed]

end Scenario

/-- What a feature comes to rests on nothing but what its scenarios come to. -/
theorem Feature.status_of_verdicts {f g : Feature}
    (h : f.scenarios.map (·.verdicts) = g.scenarios.map (·.verdicts)) :
    f.status.untimed = g.status.untimed := by
  have hstatus := congrArg (List.map fun s : Scenario => s.status.untimed) h
  simp only [List.map_map, Function.comp_def, Scenario.untimed_status_verdicts] at hstatus
  refine Status.untimed_fold ?_
  rw [List.map_map, List.map_map]
  exact hstatus

/-- What the action answers and what it does to the scopes is a function of the text, the settings
and the scopes. The name of the feature scope is not for it to change. -/
structure Action.Functional (action : Action σ) : Prop where
  result : ∀ expression settings scopes state state',
    (action expression settings scopes state).result =
      (action expression settings scopes state').result
  scopes : ∀ expression settings scopes state state',
    (action expression settings scopes state).scopes =
      (action expression settings scopes state').scopes
  named : ∀ expression settings scopes state,
    (action expression settings scopes state).scopes.feature.name = scopes.feature.name

/-- The contexts agree in all that evaluation reads, and since their journals were `before` and
`before'` the same was noted in both, but for times. -/
structure Alike (before before' : List Event) (ctx ctx' : Context σ) : Prop where
  scopes : ctx.scopes = ctx'.scopes
  registry : ctx.registry = ctx'.registry
  settings : ctx.settings = ctx'.settings
  options : ctx.options = ctx'.options
  calls : ctx.calls = ctx'.calls
  noted : ∃ events events', ctx.journal = before ++ events ∧ ctx'.journal = before' ++ events' ∧
    events.map (·.untimed) = events'.map (·.untimed)

namespace Alike

variable (h : Alike before before' ctx ctx')

include h

theorem resolve : ctx.resolve = ctx'.resolve := by
  funext r
  cases r <;> simp [Context.resolve, h.scopes, h.settings]

theorem room : ctx.room = ctx'.room := by
  rw [Context.room, Context.room, h.calls]

theorem note {e e' : Event} (he : e.untimed = e'.untimed) :
    Alike before before' (ctx.note e) (ctx'.note e') := by
  obtain ⟨events, events', hj, hj', hevents⟩ := h.noted
  refine ⟨h.scopes, h.registry, h.settings, h.options, h.calls, events ++ [e], events' ++ [e'],
    ?_, ?_, ?_⟩
  · rw [Context.note, hj, List.append_assoc]
  · rw [Context.note, hj', List.append_assoc]
  · simp [hevents, he]

theorem tabled (table : List (List String)) :
    Alike before before' (ctx.tabled table) (ctx'.tabled table) :=
  ⟨congrArg (Scopes.bindObject · _ _) h.scopes, h.registry, h.settings, h.options, h.calls, h.noted⟩

theorem untabled : Alike before before' ctx.untabled ctx'.untabled :=
  ⟨congrArg (Scopes.clearObject · _) h.scopes, h.registry, h.settings, h.options, h.calls, h.noted⟩

theorem entered (frame : Frame) (params : Pairs) :
    Alike before before' (ctx.entered frame params) (ctx'.entered frame params) := by
  have hnoted := h.note (congrArg (fun calls => (Event.called (frame :: calls)).untimed) h.calls)
  exact ⟨congrArg (Scopes.push · _) h.scopes, h.registry, h.settings, h.options,
    congrArg (frame :: ·) h.calls, hnoted.noted⟩

theorem left (depth : Nat) : Alike before before' (ctx.left depth) (ctx'.left depth) :=
  ⟨congrArg (Scopes.truncate · depth) h.scopes, h.registry, h.settings, h.options,
    congrArg (List.drop 1) h.calls, h.noted⟩

/-- The same is attached, though perhaps not to the same files. -/
theorem attached (cause : String) :
    Alike before before' (ctx.attached cause) (ctx'.attached cause) :=
  ⟨h.scopes, h.registry, h.settings, h.options, h.calls, h.noted⟩

theorem acted (ha : action.Functional) (expression : String) :
    Alike before before' (ctx.acted action expression) (ctx'.acted action expression) := by
  have hresult : (action expression ctx.settings ctx.scopes ctx.state).result =
      (action expression ctx'.settings ctx'.scopes ctx'.state).result := by
    rw [h.settings, h.scopes]
    exact ha.result ..
  have hscopes : (action expression ctx.settings ctx.scopes ctx.state).scopes =
      (action expression ctx'.settings ctx'.scopes ctx'.state).scopes := by
    rw [h.settings, h.scopes]
    exact ha.scopes ..
  have hevent : Event.untimed (.performed expression (ctx.scopes.objects.get? tableObject)
        (action expression ctx.settings ctx.scopes ctx.state).result
        (action expression ctx.settings ctx.scopes ctx.state).elapsed) =
      Event.untimed (.performed expression (ctx'.scopes.objects.get? tableObject)
        (action expression ctx'.settings ctx'.scopes ctx'.state).result
        (action expression ctx'.settings ctx'.scopes ctx'.state).elapsed) := by
    rw [Event.untimed, Event.untimed, hresult, h.scopes]
  exact ⟨hscopes, h.registry, h.settings, h.options, h.calls, (h.note hevent).noted⟩

end Alike

/-- Two outcomes are the same as far as `view` shows it, and so are the contexts they leave. -/
inductive Agrees (before before' : List Event) (view : α → β) :
    Except EvalError α × Context σ → Except EvalError α × Context σ → Prop
  | error {e : EvalError} {c c' : Context σ} (h : Alike before before' c c') :
      Agrees before before' view (.error e, c) (.error e, c')
  | ok {a a' : α} {c c' : Context σ} (hview : view a = view a') (h : Alike before before' c c') :
      Agrees before before' view (.ok a, c) (.ok a', c')

theorem Agrees.map {view : α → β} {view' : γ → δ} {f f' : α → γ}
    {o o' : Except EvalError α × Context σ} (h : Agrees before before' view o o')
    (hf : ∀ a a', view a = view a' → view' (f a) = view' (f' a')) :
    Agrees before before' view' (o.1.map f, o.2) (o'.1.map f', o'.2) := by
  cases h with
  | error h => exact .error h
  | ok hview h => exact .ok (hf _ _ hview) h

theorem Agrees.after {view : α → β} {o o' : Except EvalError α × Context σ}
    (h : Agrees before before' view o o') {g : Context σ → Context σ}
    (hg : ∀ {c c'}, Alike before before' c c' → Alike before before' (g c) (g c')) :
    Agrees before before' view (o.1, g o.2) (o'.1, g o'.2) := by
  cases h with
  | error h => exact .error (hg h)
  | ok hview h => exact .ok hview (hg h)

/-- In contexts that are alike `x` comes to the same. -/
def EvalM.Repeats (view : α → β) (x : EvalM σ α) : Prop :=
  ∀ {before before' ctx ctx'}, Alike before before' ctx ctx' →
    Agrees before before' view (exec x ctx) (exec x ctx')

theorem throw_repeats (view : α → β) (e : EvalError) : Repeats view (throw e : EvalM σ α) :=
  fun h => .error h

theorem fail_repeats (h : Alike before before' ctx ctx') (s : Step) (elapsed elapsed' : Duration)
    (cause : String) :
    Agrees before before' Step.verdicts (exec (s.fail elapsed cause) ctx)
      (exec (s.fail elapsed' cause) ctx') := by
  obtain ⟨as, he⟩ := Step.exec_fail s ctx elapsed cause
  obtain ⟨as', he'⟩ := Step.exec_fail s ctx' elapsed' cause
  rw [he, he']
  exact .ok (by rw [Step.verdicts_eq, Step.verdicts_eq]; rfl) (h.attached cause)

theorem perform_repeats (ha : action.Functional) (s : Step) (expression : String) :
    Repeats Step.verdicts (s.perform action expression) := by
  intro before before' ctx ctx' h
  rw [Step.exec_perform, Step.exec_perform, ← h.options]
  split
  · exact .ok rfl h
  · have hacted := h.acted ha expression
    have hresult := ha.result expression ctx.settings ctx.scopes ctx.state ctx'.state
    rw [← h.settings, ← h.scopes]
    dsimp only
    rw [← hresult]
    -- The answer is the same, though it may have taken another time.
    split
    · exact .ok (s.verdicts_marked rfl) hacted
    · exact fail_repeats hacted s _ _ _

theorem call_repeats {run : Scenario → EvalM σ Scenario}
    (hrun : ∀ s, Repeats Scenario.verdicts (run s)) (s : Step) (expression : String)
    (found : Registry.Resolved) : Repeats Step.verdicts (s.call run expression found) := by
  intro before before' ctx ctx' h
  rw [Step.exec_call, Step.exec_call, ← h.calls, ← h.scopes]
  dsimp only
  split
  · -- Such a call is open in both.
    exact .error h
  · refine ((hrun found.stepDef (h.entered _ _)).after fun h => h.left _).map
      fun body body' hbody => ?_
    rw [Step.verdicts_eq, Step.verdicts_eq]
    dsimp only
    rw [Option.map_some, Option.map_some, hbody, Scenario.status_of_verdicts hbody]

theorem evaluateWith_repeats (ha : action.Functional)
    {call : Step → String → Registry.Resolved → EvalM σ Step}
    (hcall : ∀ s expression found, Repeats Step.verdicts (call s expression found)) (s : Step) :
    Repeats Step.verdicts (s.evaluateWith action call) := by
  intro before before' ctx ctx' h
  have carried : ∀ expression, Repeats Step.verdicts (s.carryOut action call expression) := by
    intro expression before before' ctx ctx' h
    rw [Step.exec_carryOut, Step.exec_carryOut, ← h.registry]
    split
    · exact .error h
    · exact hcall s expression _ h
    · exact perform_repeats ha s expression h
  rw [Step.exec_evaluateWith, Step.exec_evaluateWith, ← h.resolve]
  split
  · exact fail_repeats (h.note rfl) s _ _ _
  · rw [Step.exec_withTable, Step.exec_withTable]
    split
    · exact carried _ h
    · exact (carried _ (h.tabled s.table)).after Alike.untabled

section Bodies

variable {evaluate : Step → EvalM σ Step} (he : ∀ s, Repeats Step.verdicts (evaluate s))

include he

theorem steps_repeat (ss : List Step) :
    Repeats (List.map Step.verdicts) (evaluateSteps evaluate ss) := by
  induction ss with
  | nil => exact fun h => .ok rfl h
  | cons s ss ih =>
    intro before before' ctx ctx' h
    have hs := he s h
    rw [exec_evaluateSteps_cons, exec_evaluateSteps_cons]
    generalize exec (evaluate s) ctx = o, exec (evaluate s) ctx' = o' at hs ⊢
    cases hs with
    | error h => exact .error h
    | @ok t t' c c' hview h =>
      dsimp only
      rw [← Step.isFailed_of_verdicts hview]
      split
      · exact .ok (by simp [hview]) h
      · exact (ih h).map fun ts ts' hts => by simp [hview, hts]

theorem body_repeats (s : Scenario) : Repeats Scenario.verdicts (s.evaluateBody evaluate) := by
  intro before before' ctx ctx' h
  rw [Scenario.evaluateBody_eq, exec_map, exec_map]
  refine (steps_repeat he s.allSteps h).map fun ts ts' hts => ?_
  rw [Scenario.verdicts_withSteps, hts, Scenario.verdicts_withSteps]

end Bodies

/-- By induction on how deep calls may still be nested. -/
theorem step_repeats (ha : action.Functional) (room : Nat) (s : Step) :
    Repeats Step.verdicts (s.evaluate action room) := by
  induction room generalizing s with
  | zero => exact evaluateWith_repeats ha (fun _ _ _ => throw_repeats _ _) s
  | succ room ih => exact evaluateWith_repeats ha (fun s => call_repeats (body_repeats ih) s) s

theorem scenario_repeats (ha : action.Functional) (s : Scenario) :
    Repeats Scenario.verdicts (s.evaluate action) := by
  intro before before' ctx ctx' h
  rw [Scenario.exec_evaluate, Scenario.exec_evaluate, ← h.registry, ← h.room]
  split
  · split
    · exact .error h
    · exact .ok rfl ⟨h.scopes, rfl, h.settings, h.options, h.calls, h.noted⟩
  · split
    · exact .ok rfl h
    · exact body_repeats (step_repeats ha _) s h

theorem scenarios_repeat (ha : action.Functional) (failed : Bool) (ss : List Scenario) :
    Repeats (List.map Scenario.verdicts) (evaluateScenarios action failed ss) := by
  induction ss generalizing failed with
  | nil => exact fun h => .ok rfl h
  | cons s ss ih =>
    intro before before' ctx ctx' h
    have hs := scenario_repeats ha s h
    rw [exec_evaluateScenarios_cons, exec_evaluateScenarios_cons, ← h.options]
    split
    · exact .ok rfl h
    · split
      · exact .ok rfl h
      · generalize exec (s.evaluate action) ctx = o, exec (s.evaluate action) ctx' = o' at hs ⊢
        cases hs with
        | error h => exact .error h
        | @ok t t' c c' hview h =>
          dsimp only
          rw [← Scenario.isFailed_of_verdicts hview]
          exact (ih _ h).map fun ts ts' hts => by simp [hview, hts]

end Gherkin
