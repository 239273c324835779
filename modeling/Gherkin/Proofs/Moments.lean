import Gherkin.Proofs.Invariance

/-! The moments at which steps begin during an evaluation, in the order in which they come, each
with the calls inside which it lies. What holds of the parts of an evaluation and their moments
holds of the whole. -/
namespace Gherkin

open EvalM

variable {σ α β : Type}

/-- A call of a step definition: the text of the step and what it was resolved to. -/
structure Caller where
  text : String
  found : Registry.Resolved

def Caller.frame (k : Caller) : Frame :=
  { name := k.found.stepDef.name, expression := k.text }

/-- What a step turns out to be once its text is looked at. -/
inductive Move where
  /-- The text refers to a name without a value. -/
  | unbound (fault : Unbound)
  /-- No step definition can be found or called for certain. -/
  | refused (fault : StepDefError)
  /-- The text stands for no step definition. -/
  | literal (text : String)
  | call (k : Caller)

/-- The beginning of a step. The callers are those that have not returned, innermost first. -/
structure Moment (σ : Type) where
  context : Context σ
  step : Step
  /-- How deep step definitions may still be nested. -/
  room : Nat
  callers : List Caller

/-- The moments of an evaluation that starts in a given context. -/
abbrev Trace (σ : Type) := Context σ → List (Moment σ)

namespace Trace

def none : Trace σ := fun _ => []

/-- The moments of `x` and then those of what follows, unless `x` ends in an error. -/
def andThen (t : Trace σ) (x : EvalM σ α) (u : α → Trace σ) : Trace σ := fun ctx =>
  t ctx ++ match exec x ctx with
    | (.ok a, c) => u a c
    | (.error _, _) => []

/-- Which moments there are depends on the options. -/
def under (u : Options → Trace σ) : Trace σ := fun ctx => u ctx.options ctx

theorem andThen_none (t : Trace σ) (x : EvalM σ α) : (t.andThen x fun _ => none) = t := by
  funext ctx
  unfold andThen none
  split <;> simp

section AndThen

variable {t : Trace σ} {x : EvalM σ α} {u : α → Trace σ} {ctx c : Context σ} {a : α}

theorem andThen_of_ok (h : exec x ctx = (.ok a, c)) : t.andThen x u ctx = t ctx ++ u a c := by
  rw [andThen, h]

theorem mem_andThen {m : Moment σ} : m ∈ t.andThen x u ctx ↔
    m ∈ t ctx ∨ ∃ a c, exec x ctx = (.ok a, c) ∧ m ∈ u a c := by
  rw [andThen, List.mem_append]
  refine or_congr_right ⟨fun hm => ?_, fun ⟨a, c, hx, hm⟩ => by rwa [hx]⟩
  split at hm
  · next a c hx => exact ⟨a, c, hx, hm⟩
  · cases hm

end AndThen

end Trace

/-- What a step does in a context, if step definitions may still be nested `room` deep. -/
def Step.move (room : Nat) (s : Step) (ctx : Context σ) : Move :=
  match Reference.interpolate ctx.resolve s.expression with
  | .error fault => .unbound fault
  | .ok text =>
    match ctx.registry.resolve text with
    | .error fault => .refused fault
    | .ok none => .literal text
    | .ok (some found) =>
      let k : Caller := { text, found }
      if room = 0 ∨ k.frame ∈ ctx.calls then .refused (.infiniteRecursion k.frame.name text)
      else .call k

/-- Where the body of a step definition begins that a step calls. -/
def Context.entering (s : Step) (k : Caller) (ctx : Context σ) : Context σ :=
  (ctx.atStep s).entered k.frame k.found.params

/-- The moments of steps that are evaluated in order. None comes after a failure. -/
def stepsTrace (evaluate : Step → EvalM σ Step) (trace : Step → Trace σ) : List Step → Trace σ
  | [] => .none
  | s :: ss => (trace s).andThen (evaluate s) fun done =>
      if done.status.isFailed then .none else stepsTrace evaluate trace ss

/-- The beginning of a step and the moments inside the step definition that it calls. -/
def Step.trace (action : Action σ) : (room : Nat) → List Caller → Step → Trace σ
  | 0, callers, s => fun ctx => [{ context := ctx, step := s, room := 0, callers }]
  | room + 1, callers, s => fun ctx =>
    { context := ctx, step := s, room := room + 1, callers } ::
      match s.move (room + 1) ctx with
      | .call k => stepsTrace (Step.evaluate action room) (Step.trace action room (k :: callers))
          k.found.stepDef.allSteps (ctx.entering s k)
      | _ => []

/-- The moments of a body, which lies inside the given calls. -/
def Scenario.bodyTrace (action : Action σ) (room : Nat) (callers : List Caller) (s : Scenario) :
    Trace σ :=
  stepsTrace (Step.evaluate action room) (Step.trace action room callers) s.allSteps

def Scenario.trace (action : Action σ) (s : Scenario) : Trace σ := fun ctx =>
  if s.isStepDef || s.isIgnored then [] else s.bodyTrace action ctx.room [] ctx

def scenariosTrace (action : Action σ) : (failed : Bool) → List Scenario → Trace σ
  | _, [] => .none
  | failed, s :: ss => .under fun options =>
      if failed && options.exitOnFail then .none
      else if failed && options.failFast then .none
      else (s.trace action).andThen (s.evaluate action) fun done =>
        scenariosTrace action (failed || done.status.isFailed) ss

def metasTrace (action : Action σ) : List Feature → Trace σ
  | [] => .none
  | f :: fs => (scenariosTrace action false f.scenarios).andThen (f.register action) fun _ =>
      metasTrace action fs

def Feature.trace (action : Action σ) (f : Feature) : Trace σ :=
  (metasTrace action f.metas).andThen (f.metas.mapM (register action)) fun _ =>
    scenariosTrace action false f.scenarios

namespace Step

variable {s : Step} {ctx : Context σ} {room : Nat} {k : Caller}

theorem move_eq_unbound_iff {fault : Unbound} : s.move room ctx = .unbound fault ↔
    Reference.interpolate ctx.resolve s.expression = .error fault := by
  unfold move
  split
  · next h => simp [h]
  · next h =>
    simp only [h, reduceCtorEq, iff_false]
    split <;> try split
    all_goals simp

theorem move_eq_literal_iff {text : String} : s.move room ctx = .literal text ↔
    Reference.interpolate ctx.resolve s.expression = .ok text ∧
      ctx.registry.resolve text = .ok none := by
  unfold move
  split
  · next h => simp [h]
  · next text' h =>
    simp only [h, Except.ok.injEq]
    constructor
    · intro hm
      split at hm <;> try split at hm
      all_goals cases hm
      exact ⟨rfl, ‹_›⟩
    · rintro ⟨rfl, hr⟩
      simp [hr]

theorem move_eq_call_iff : s.move room ctx = .call k ↔
    (Reference.interpolate ctx.resolve s.expression = .ok k.text ∧
      ctx.registry.resolve k.text = .ok (some k.found)) ∧ room ≠ 0 ∧ k.frame ∉ ctx.calls := by
  unfold move
  split
  · next h => simp [h]
  · next text h =>
    simp only [h, Except.ok.injEq]
    constructor
    · intro hm
      split at hm <;> try split at hm
      all_goals cases hm
      next hr hfree => exact ⟨⟨rfl, hr⟩, not_or.mp hfree⟩
    · rintro ⟨⟨rfl, hr⟩, hfree⟩
      simp only [hr]
      rw [if_neg (not_or.mpr hfree)]

theorem resolve_of_refused {fault : StepDefError} (h : s.move room ctx = .refused fault) :
    ∃ text, Reference.interpolate ctx.resolve s.expression = .ok text ∧
      ctx.registry.resolve text ≠ .ok none := by
  unfold move at h
  split at h
  · cases h
  · next text hi =>
    refine ⟨text, hi, fun hr => ?_⟩
    rw [hr] at h
    cases h

variable (action : Action σ)

theorem exec_of_unbound {fault : Unbound} (h : s.move room ctx = .unbound fault) :
    exec (s.evaluate action room) ctx =
      exec (s.fail Duration.zero fault.message) (ctx.note (.unbound fault)) := by
  cases room <;> rw [evaluate, exec_evaluateWith, move_eq_unbound_iff.mp h]

theorem exec_of_literal {text : String} (h : s.move room ctx = .literal text) :
    exec (s.evaluate action room) ctx =
      ((exec (s.perform action text) (ctx.atStep s)).1,
        (exec (s.perform action text) (ctx.atStep s)).2.afterStep s) := by
  obtain ⟨hi, hr⟩ := move_eq_literal_iff.mp h
  cases room <;> rw [evaluate, exec_evaluateWith, hi] <;>
    simp only [exec_withTable_atStep, exec_carryOut, Context.registry_atStep, hr]

theorem exec_of_refused {fault : StepDefError} (h : s.move room ctx = .refused fault) :
    exec (s.evaluate action room) ctx = (.error (.stepDef fault), (ctx.atStep s).afterStep s) := by
  unfold move at h
  split at h
  · cases h
  next text hi =>
  rcases hr : ctx.registry.resolve text with e | _ | found <;> rw [hr] at h <;> dsimp only at h
  · cases h
    cases room <;> rw [evaluate, exec_evaluateWith, hi] <;>
      simp only [exec_withTable_atStep, exec_carryOut, Context.registry_atStep, hr]
  · cases h
  · split at h
    · next hfull =>
      cases h
      cases room with
      | zero =>
        rw [evaluate, exec_evaluateWith, hi]
        simp only [exec_withTable_atStep, exec_carryOut, Context.registry_atStep, hr]
        rfl
      | succ room =>
        have hin : { name := found.stepDef.name, expression := text } ∈ (ctx.atStep s).calls := by
          rw [Context.calls_atStep]
          exact hfull.resolve_left (Nat.succ_ne_zero room)
        rw [evaluate, exec_evaluateWith, hi]
        simp only [exec_withTable_atStep, exec_carryOut, Context.registry_atStep, hr, exec_call,
          List.contains_eq_mem, hin, decide_true, if_true]
        rfl
    · cases h

theorem exec_of_call (h : s.move room ctx = .call k) :
    exec (s.evaluate action room) ctx =
      let body := exec (k.found.stepDef.evaluateBody (Step.evaluate action (room - 1)))
        (ctx.entering s k)
      (body.1.map fun body => { s with status := body.status, body := some body },
        (body.2.left (ctx.atStep s).scopes.depth).afterStep s) := by
  obtain ⟨⟨hi, hr⟩, hroom, hfree⟩ := move_eq_call_iff.mp h
  cases room with
  | zero => exact absurd rfl hroom
  | succ room =>
    have hout : { name := k.found.stepDef.name, expression := k.text } ∉ (ctx.atStep s).calls := by
      rwa [Context.calls_atStep]
    rw [evaluate, exec_evaluateWith, hi]
    simp only [exec_withTable_atStep, exec_carryOut, Context.registry_atStep, hr, exec_call,
      List.contains_eq_mem, hout, decide_false, Bool.false_eq_true, if_false]
    rfl

theorem trace_of_call (h : s.move room ctx = .call k) (callers : List Caller) :
    s.trace action room callers ctx = { context := ctx, step := s, room, callers } ::
      k.found.stepDef.bodyTrace action (room - 1) (k :: callers) (ctx.entering s k) := by
  cases room with
  | zero => exact absurd rfl (move_eq_call_iff.mp h).2.1
  | succ room =>
    rw [trace]
    dsimp only
    rw [h]
    rfl

theorem trace_of_not_call (h : ∀ k, s.move room ctx ≠ .call k) (callers : List Caller) :
    s.trace action room callers ctx = [{ context := ctx, step := s, room, callers }] := by
  cases room with
  | zero => rfl
  | succ room =>
    rw [trace]
    dsimp only
    split
    · next k hk => exact absurd hk (h k)
    · rfl

theorem mem_trace_self (callers : List Caller) :
    { context := ctx, step := s, room, callers } ∈ s.trace action room callers ctx := by
  cases room <;> exact List.mem_cons_self

end Step

/-- A property of computations and their moments inside some calls. Evaluations have it as soon as
a step has it whose calls do. -/
structure Traceable (action : Action σ)
    (P : Nat → List Caller → (α : Type) → EvalM σ α → Trace σ → Prop) : Prop where
  pure : ∀ {room callers α} (a : α), P room callers α (Pure.pure a) .none
  bind : ∀ {room callers α β} {x : EvalM σ α} {t : Trace σ} {f : α → EvalM σ β} {u : α → Trace σ},
    P room callers α x t → (∀ a, P room callers β (f a) (u a)) →
      P room callers β (x >>= f) (t.andThen x u)
  step : ∀ {room callers} (s : Step),
    (∀ (ctx : Context σ) k, s.move room ctx = .call k → P (room - 1) (k :: callers) _
      (k.found.stepDef.evaluateBody (Step.evaluate action (room - 1)))
      (k.found.stepDef.bodyTrace action (room - 1) (k :: callers))) →
    P room callers _ (s.evaluate action room) (s.trace action room callers)

/-- A property of computations and their moments, which features have as soon as scenarios do. -/
structure FeatureTraceable (action : Action σ)
    (P : (α : Type) → EvalM σ α → Trace σ → Prop) : Prop where
  pure : ∀ {α} (a : α), P α (Pure.pure a) .none
  bind : ∀ {α β} {x : EvalM σ α} {t : Trace σ} {f : α → EvalM σ β} {u : α → Trace σ},
    P α x t → (∀ a, P β (f a) (u a)) → P β (x >>= f) (t.andThen x u)
  under : ∀ {α} {f : Options → EvalM σ α} {u : Options → Trace σ}, (∀ o, P α (f o) (u o)) →
    P α (do f (← get).options) (.under u)
  scenario : ∀ s : Scenario, P _ (s.evaluate action) (s.trace action)
  unloadable : ∀ {α} path cause, P α (throw (.metaFailed path cause)) .none
  loaded : ∀ path, P Unit (modify fun ctx => { ctx with loaded := ctx.loaded.insert path }) .none

namespace Traceable

variable {action : Action σ} {P : Nat → List Caller → (α : Type) → EvalM σ α → Trace σ → Prop}
  (h : Traceable action P) {room : Nat} {callers : List Caller}

include h

theorem map {x : EvalM σ α} {t : Trace σ} (f : α → β) (hx : P room callers α x t) :
    P room callers β (do return f (← x)) t := by
  have hmap := h.bind hx fun a => h.pure (f a)
  rwa [Trace.andThen_none] at hmap

theorem steps {evaluate : Step → EvalM σ Step} {trace : Step → Trace σ}
    (hs : ∀ s, P room callers _ (evaluate s) (trace s)) (ss : List Step) :
    P room callers _ (evaluateSteps evaluate ss) (stepsTrace evaluate trace ss) := by
  induction ss with
  | nil => exact h.pure _
  | cons s ss ih =>
    refine h.bind (hs s) fun done => ?_
    split
    · exact h.pure _
    · exact h.map _ ih

theorem body (hs : ∀ s : Step, P room callers _ (s.evaluate action room)
      (s.trace action room callers)) (s : Scenario) :
    P room callers _ (s.evaluateBody (Step.evaluate action room))
      (s.bodyTrace action room callers) := by
  rw [Scenario.evaluateBody_eq, ← bind_pure_comp]
  exact h.map _ (h.steps hs s.allSteps)

/-- By induction on how deep calls may still be nested. -/
theorem evaluate (room : Nat) (callers : List Caller) (s : Step) :
    P room callers _ (s.evaluate action room) (s.trace action room callers) := by
  induction room generalizing callers s with
  | zero => exact h.step s fun _ _ hk => absurd rfl (Step.move_eq_call_iff.mp hk).2.1
  | succ room ih => exact h.step s fun _ k _ => h.body (ih (k :: callers)) k.found.stepDef

end Traceable

namespace FeatureTraceable

variable {action : Action σ} {P : (α : Type) → EvalM σ α → Trace σ → Prop}
  (h : FeatureTraceable action P)

include h

theorem map {x : EvalM σ α} {t : Trace σ} (f : α → β) (hx : P α x t) :
    P β (do return f (← x)) t := by
  have hmap := h.bind hx fun a => h.pure (f a)
  rwa [Trace.andThen_none] at hmap

theorem scenarios (failed : Bool) (ss : List Scenario) :
    P _ (evaluateScenarios action failed ss) (scenariosTrace action failed ss) := by
  induction ss generalizing failed with
  | nil => exact h.pure _
  | cons s ss ih =>
    refine h.under (f := fun options =>
      if failed && options.exitOnFail then Pure.pure []
      else if failed && options.failFast then Pure.pure ((s :: ss).map (·.marked .skipped))
      else do
        let done ← s.evaluate action
        return done :: (← evaluateScenarios action (failed || done.status.isFailed) ss))
      fun options => ?_
    split
    · exact h.pure _
    · split
      · exact h.pure _
      · exact h.bind (h.scenario s) fun done => h.map _ (ih _)

theorem register (f : Feature) :
    P _ (f.register action) (scenariosTrace action false f.scenarios) := by
  rw [← Trace.andThen_none (scenariosTrace action false f.scenarios)]
  refine h.bind (h.scenarios false f.scenarios) fun ss => ?_
  dsimp only
  split
  · exact h.unloadable _ _
  · exact h.map _ (h.loaded _)

theorem metas (fs : List Feature) :
    P _ (fs.mapM (Feature.register action)) (metasTrace action fs) := by
  induction fs with
  | nil => exact h.pure _
  | cons f fs ih =>
    rw [List.mapM_cons]
    exact h.bind (h.register f) fun _ => h.map _ ih

theorem parts (f : Feature) : P _ (f.evaluateParts action) (f.trace action) :=
  h.bind (h.metas f.metas) fun _ => h.map _ (h.scenarios false f.scenarios)

end FeatureTraceable

/-- A moment lies inside all calls inside which the evaluation begins. -/
theorem callers_traceable (action : Action σ) :
    Traceable action fun _ callers _ _ t =>
      ∀ ctx, ∀ m ∈ t ctx, callers.length ≤ m.callers.length where
  pure _ _ _ hm := by cases hm
  bind ht hu ctx m hm := by
    obtain hm | ⟨a, c, -, hm⟩ := Trace.mem_andThen.mp hm
    · exact ht ctx m hm
    · exact hu a c m hm
  step {room callers} s hcalled ctx m hm := by
    by_cases hk : ∃ k, s.move room ctx = .call k
    · obtain ⟨k, hk⟩ := hk
      rw [Step.trace_of_call action hk] at hm
      rcases List.mem_cons.mp hm with rfl | hm
      · exact Nat.le_refl _
      · exact Nat.le_of_succ_le (hcalled ctx k hk _ m hm)
    · rw [Step.trace_of_not_call action (not_exists.mp hk)] at hm
      obtain rfl := List.mem_singleton.mp hm
      exact Nat.le_refl _

theorem lt_length_callers {action : Action σ} {room : Nat} {k : Caller} {callers : List Caller}
    {s : Scenario} {ctx : Context σ} {m : Moment σ}
    (hm : m ∈ s.bodyTrace action room (k :: callers) ctx) : callers.length < m.callers.length :=
  (callers_traceable action).body ((callers_traceable action).evaluate room (k :: callers)) s ctx m
    hm

/-- Where `J` holds before `x`, it holds after it, and `I` at all moments. -/
def Throughout (J : Context σ → Prop) (I : Nat → List Caller → Context σ → Prop) (x : EvalM σ α)
    (t : Trace σ) : Prop :=
  ∀ ctx, J ctx → J (exec x ctx).2 ∧ ∀ m ∈ t ctx, I m.room m.callers m.context

namespace Throughout

variable {J : Context σ → Prop} {I : Nat → List Caller → Context σ → Prop}

theorem pure (a : α) : Throughout J I (Pure.pure a) .none :=
  fun _ h => ⟨h, fun _ hm => by cases hm⟩

theorem bind {x : EvalM σ α} {t : Trace σ} {f : α → EvalM σ β} {u : α → Trace σ}
    (hx : Throughout J I x t) (hf : ∀ a, Throughout J I (f a) (u a)) :
    Throughout J I (x >>= f) (t.andThen x u) := by
  intro ctx h
  obtain ⟨hj, hi⟩ := hx ctx h
  refine ⟨?_, fun m hm => ?_⟩
  · rw [exec_bind]
    rcases hr : exec x ctx with ⟨_ | a, c⟩ <;> rw [hr] at hj
    · exact hj
    · exact (hf a c hj).1
  · obtain hm | ⟨a, c, hr, hm⟩ := Trace.mem_andThen.mp hm
    · exact hi m hm
    · rw [hr] at hj
      exact (hf a c hj).2 m hm

end Throughout

/-- A property of contexts at moments that steps keep and that holds where called step definitions
begin. -/
structure MomentInvariant (action : Action σ) (I : Nat → List Caller → Context σ → Prop) :
    Prop where
  step : ∀ {room callers ctx} (s : Step), I room callers ctx →
    I room callers (exec (s.evaluate action room) ctx).2
  entering : ∀ {room callers ctx k} {s : Step}, I room callers ctx → s.move room ctx = .call k →
    I (room - 1) (k :: callers) (ctx.entering s k)
  registered : ∀ (ctx : Context σ) registry, I ctx.room [] ctx → I ctx.room [] { ctx with registry }
  loaded : ∀ (ctx : Context σ) loaded, I ctx.room [] ctx → I ctx.room [] { ctx with loaded }

namespace MomentInvariant

variable {action : Action σ} {I : Nat → List Caller → Context σ → Prop}
  (h : MomentInvariant action I)

include h

theorem traceable :
    Traceable action fun room callers _ x t => Throughout (I room callers) I x t where
  pure := .pure
  bind := .bind
  step {room callers} s hcalled ctx hi := by
    refine ⟨h.step s hi, ?_⟩
    by_cases hk : ∃ k, s.move room ctx = .call k
    · obtain ⟨k, hk⟩ := hk
      rw [Step.trace_of_call action hk, List.forall_mem_cons]
      exact ⟨hi, (hcalled ctx k hk _ (h.entering hi hk)).2⟩
    · rw [Step.trace_of_not_call action (not_exists.mp hk), List.forall_mem_singleton]
      exact hi

theorem featureTraceable :
    FeatureTraceable action fun _ x t => Throughout (fun ctx => I ctx.room [] ctx) I x t where
  pure := .pure
  bind := .bind
  under hf ctx := hf ctx.options ctx
  scenario s ctx hi := by
    unfold Scenario.trace
    cases hs : s.isStepDef with
    | true =>
      rw [Scenario.exec_evaluate, if_pos hs]
      refine ⟨?_, fun m hm => by cases hm⟩
      split
      · exact hi
      · exact h.registered ctx _ hi
    | false =>
      have hcalls := (calls_frame action).scenario_of_not_stepDef hs ctx
      have hroom : (exec (s.evaluate action) ctx).2.room = ctx.room := by
        rw [Context.room, hcalls, Context.room]
      change I _ [] _ ∧ _
      rw [hroom, Scenario.exec_evaluate, if_neg (by simp [hs])]
      cases hi' : s.isIgnored with
      | true => exact ⟨hi, fun m hm => by cases hm⟩
      | false => exact h.traceable.body (h.traceable.evaluate _ _) s ctx hi
  unloadable _ _ _ hi := ⟨hi, fun _ hm => by cases hm⟩
  loaded path ctx hi := ⟨h.loaded ctx _ hi, fun _ hm => by cases hm⟩

/-- What holds where a feature begins holds at all its moments. -/
theorem feature {ctx : Context σ} (hi : I ctx.room [] ctx) (f : Feature) :
    ∀ m ∈ f.trace action ctx, I m.room m.callers m.context :=
  (h.featureTraceable.parts f ctx hi).2

end MomentInvariant

end Gherkin
