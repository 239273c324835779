import Gherkin.Proofs.Journal
import Mathlib.Logic.Function.Iterate

/-! Step definitions that call each other. However the texts of their steps change on the way, the
calls that have not returned are pairwise different and no more than allowed, and evaluation ends
for recursion exactly where one call more would break that. -/
namespace Gherkin

open EvalM

variable {σ : Type} {action : Action σ} {ctx : Context σ}

/-- Evaluates a step like `Step.evaluate`. But how deep step definitions may still be nested is read
off the calls that have not returned, and the steps of a called step definition are left to
`self`. -/
def Step.unroll (action : Action σ) (self : Step → EvalM σ Step) : Step → EvalM σ Step :=
  Step.evaluateWith action fun s text found => do
    if maxCallDepth ≤ (← get).calls.length then throw (Step.recursion found.stepDef text)
    else s.call (Scenario.evaluateBody self) text found

/-- The calls that have not returned are those of the callers, all different, and together with
those still to come no more than allowed. -/
structure Nested (room : Nat) (callers : List Caller) (ctx : Context σ) : Prop where
  calls : ctx.calls = callers.map (·.frame)
  depth : ctx.calls.length + room = maxCallDepth
  nodup : ctx.calls.Nodup

theorem calls_entering (s : Step) (k : Caller) (ctx : Context σ) :
    (ctx.entering s k).calls = k.frame :: ctx.calls :=
  congrArg (k.frame :: ·) (Context.calls_atStep s ctx)

theorem nested_invariant (action : Action σ) : MomentInvariant action Nested where
  step {room callers ctx} s h := by
    have hcalls := (calls_frame action).step room s ctx
    exact ⟨hcalls.trans h.calls, hcalls ▸ h.depth, hcalls ▸ h.nodup⟩
  entering {room callers ctx k s} h hk := by
    obtain ⟨-, hroom, hfree⟩ := Step.move_eq_call_iff.mp hk
    have hdepth := h.depth
    constructor <;> rw [calls_entering]
    · rw [h.calls, List.map_cons]
    · rw [List.length_cons]
      omega
    · exact List.nodup_cons.mpr ⟨hfree, h.nodup⟩
  registered _ _ h := ⟨h.calls, h.depth, h.nodup⟩
  loaded _ _ h := ⟨h.calls, h.depth, h.nodup⟩

section Unrolling

variable {evaluate evaluate' : Step → EvalM σ Step} {J : Context σ → Prop}

/-- Steps that are evaluated alike one by one are evaluated alike in order. -/
theorem exec_evaluateSteps_congr (hsame : ∀ s ctx, J ctx → exec (evaluate s) ctx =
      exec (evaluate' s) ctx) (hkeep : ∀ s ctx, J ctx → J (exec (evaluate' s) ctx).2)
    (ss : List Step) (hj : J ctx) :
    exec (evaluateSteps evaluate ss) ctx = exec (evaluateSteps evaluate' ss) ctx := by
  induction ss generalizing ctx with
  | nil => rfl
  | cons s ss ih =>
    have hnext := hkeep s ctx hj
    rw [exec_evaluateSteps_cons, exec_evaluateSteps_cons, hsame s ctx hj]
    rcases hr : exec (evaluate' s) ctx with ⟨_ | done, c⟩
    · rfl
    · rw [hr] at hnext
      dsimp only
      rw [ih hnext]

theorem Step.exec_evaluateWith_congr {call call' : Step → String → Registry.Resolved → EvalM σ Step}
    (s : Step) (h : ∀ text found, exec (call s text found) (ctx.atStep s) =
      exec (call' s text found) (ctx.atStep s)) :
    exec (s.evaluateWith action call) ctx = exec (s.evaluateWith action call') ctx := by
  rw [exec_evaluateWith, exec_evaluateWith]
  split
  · rfl
  · rw [exec_withTable_atStep, exec_withTable_atStep, exec_carryOut, exec_carryOut]
    split
    · rfl
    · rw [h]
    · rfl

theorem Step.exec_call_congr {run run' : Scenario → EvalM σ Scenario} {text : String}
    {found : Registry.Resolved} (s : Step)
    (h : ∀ frame, exec (run found.stepDef) (ctx.entered frame found.params) =
      exec (run' found.stepDef) (ctx.entered frame found.params)) :
    exec (s.call run text found) ctx = exec (s.call run' text found) ctx := by
  rw [exec_call, exec_call]
  dsimp only
  rw [h]

/-- What evaluates the steps of step definitions that are called deeper than allowed does not
matter, since none is. By induction on how deep calls may still be nested. -/
theorem exec_iterate_unroll (self : Step → EvalM σ Step) {room n : Nat} (hn : room < n) (s : Step)
    (hdepth : ctx.calls.length + room = maxCallDepth) :
    exec ((Step.unroll action)^[n] self s) ctx = exec (s.evaluate action room) ctx := by
  induction n generalizing room ctx s with
  | zero => exact absurd hn (Nat.not_lt_zero room)
  | succ n ih =>
    have hcalls := congrArg List.length (Context.calls_atStep s ctx)
    rw [Function.iterate_succ_apply']
    cases room with
    | zero =>
      refine Step.exec_evaluateWith_congr s fun text found => ?_
      rw [exec_get_bind, if_pos (by omega)]
    | succ room =>
      refine Step.exec_evaluateWith_congr s fun text found => ?_
      rw [exec_get_bind, if_neg (by omega)]
      refine Step.exec_call_congr s fun frame => ?_
      have hkeep := (calls_frame action).step room
      rw [Scenario.evaluateBody_eq, Scenario.evaluateBody_eq, exec_map, exec_map,
        exec_evaluateSteps_congr (J := fun c => c.calls.length + room = maxCallDepth)
          (fun s c => ih (by omega) s) (fun s c h => by rwa [hkeep s c])]
      simp only [Context.entered, Context.note, List.length_cons]
      omega

end Unrolling

/-- The step stands for a step definition of this name, by this text, and its call would repeat one
that has not returned or be one more than allowed. -/
def Moment.Recurs (m : Moment σ) (name text : String) : Prop :=
  ∃ found, Reference.interpolate m.context.resolve m.step.expression = .ok text ∧
    m.context.registry.resolve text = .ok (some found) ∧ found.stepDef.name = name ∧
    ({ name, expression := text } ∈ m.context.calls ∨ m.context.calls.length = maxCallDepth)

theorem Moment.move_eq_recursion_iff {m : Moment σ} {name text : String}
    (h : Nested m.room m.callers m.context) :
    m.move = .refused (.infiniteRecursion name text) ↔ m.Recurs name text := by
  have hroom : m.room = 0 ↔ m.context.calls.length = maxCallDepth := by
    have := h.depth
    omega
  rw [move, Step.move_eq_recursion_iff, Recurs]
  simp only [hroom, or_comm]

/-- Evaluation ends whatever step definitions there are: no more than `maxCallDepth` calls are ever
open, each with its own name and text, and it ends for recursion exactly if a step would call one
that is open or one more than these. All calls have returned then. -/
theorem recursion_caught (action : Action σ) (f : Feature) (hcalls : ctx.calls = []) :
    (∀ m ∈ f.trace action ctx,
      m.context.calls = m.callers.map (·.frame) ∧ m.context.calls.length ≤ maxCallDepth ∧
        m.context.calls.Nodup ∧
        ∀ self n, maxCallDepth < n →
          exec ((Step.unroll action)^[n] self m.step) m.context =
            exec (m.step.evaluate action m.room) m.context) ∧
    (∃ events, (exec (f.evaluate action) ctx).2.journal = ctx.journal ++ events ∧
      ∀ chain, .called chain ∈ events → chain.length ≤ maxCallDepth ∧ chain.Nodup) ∧
    (∀ name text, (exec (f.evaluate action) ctx).1 =
        .error (.stepDef (.infiniteRecursion name text)) ↔
      ∃ m ∈ f.trace action ctx, m.Recurs name text) ∧
    (exec (f.evaluate action) ctx).2.calls = [] := by
  have hstart : Nested ctx.room [] ctx := by
    refine ⟨hcalls, ?_, hcalls ▸ List.nodup_nil⟩
    simp [Context.room, hcalls]
  have hnested := (nested_invariant action).feature hstart f
  have faithful := faithful_feature action f
  refine ⟨fun m hm => ?_, ⟨_, faithful.journal ctx, fun chain hc => ?_⟩, fun name text => ?_, ?_⟩
  · have hdepth := (hnested m hm).depth
    refine ⟨(hnested m hm).calls, by omega, (hnested m hm).nodup, fun self n hn => ?_⟩
    exact exec_iterate_unroll self (by omega) m.step hdepth
  · obtain ⟨m, hm, he⟩ := List.mem_filterMap.mp hc
    obtain ⟨k, hk, rfl⟩ := Moment.event?_eq_called_iff.mp he
    have hinside := (nested_invariant action).entering (hnested m hm) hk
    have hdepth := hinside.depth
    have hnodup := hinside.nodup
    rw [calls_entering] at hdepth hnodup
    exact ⟨by omega, hnodup⟩
  · constructor
    · intro h
      obtain ⟨m, hm, hmove⟩ := faithful.recursion ctx name text h
      exact ⟨m, hm, (Moment.move_eq_recursion_iff (hnested m hm)).mp hmove⟩
    · rintro ⟨m, hm, hr⟩
      have hmove := (Moment.move_eq_recursion_iff (hnested m hm)).mpr hr
      exact faithful.raised ctx _ ⟨m, hm, congrArg Prod.fst (Step.exec_of_refused action hmove)⟩
  · exact ((calls_frame action).feature f ctx).trans hcalls

/-- Two step definitions that call each other. -/
def pingPong : Feature where
  header := { name := "Games" }
  scenarios := [
    { name := "I serve <n>", tags := [.stepDef], steps := [
      { keyword := .given, expression := "you return $<n>" }] },
    { name := "you return <n>", tags := [.stepDef], steps := [
      { keyword := .given, expression := "I serve $<n>" }] },
    { name := "Match", steps := [{ keyword := .given, expression := "I serve 1" }] }]

theorem recursion_caught_pingPong :
    let ctx : Context Unit := { state := () }
    (∃ m ∈ pingPong.trace .builtin ctx, m.Recurs "I serve <n>" "I serve 1") ∧
      (exec (pingPong.evaluate .builtin) ctx).2.calls = [] := by
  intro ctx
  have hstart : ctx.calls = [] := rfl
  obtain ⟨-, -, hrecurs, hcalls⟩ := recursion_caught .builtin pingPong hstart
  refine ⟨(hrecurs _ _).mp ?_, hcalls⟩
  have herror : (match (exec (pingPong.evaluate .builtin) ctx).1 with
      | .error e => some e
      | .ok _ => none) = some (.stepDef (.infiniteRecursion "I serve <n>" "I serve 1")) := by
    decide +kernel
  split at herror
  · next e he => rw [he, Option.some.inj herror]
  · cases herror

end Gherkin
