import Gherkin.Proofs.Composition

/-! No scenario can tell under which policies it is evaluated: with other policies it has the same
outcome and leaves the same context, but for the policies. -/
namespace Gherkin

open EvalM

variable {σ α β : Type}

namespace Context

/-- With these policies for what follows a failure. -/
def withPolicy (failFast exitOnFail : Bool) (ctx : Context σ) : Context σ :=
  { ctx with options := { ctx.options with failFast, exitOnFail } }

variable (f e : Bool) (ctx : Context σ)

@[simp] theorem withPolicy_scopes : (ctx.withPolicy f e).scopes = ctx.scopes := rfl

@[simp] theorem withPolicy_registry : (ctx.withPolicy f e).registry = ctx.registry := rfl

@[simp] theorem withPolicy_calls : (ctx.withPolicy f e).calls = ctx.calls := rfl

@[simp] theorem withPolicy_resolve : (ctx.withPolicy f e).resolve = ctx.resolve := rfl

@[simp] theorem withPolicy_room : (ctx.withPolicy f e).room = ctx.room := rfl

@[simp] theorem withPolicy_withPolicy (f' e' : Bool) :
    (ctx.withPolicy f e).withPolicy f' e' = ctx.withPolicy f' e' := rfl

@[simp] theorem note_withPolicy (event : Event) :
    (ctx.withPolicy f e).note event = (ctx.note event).withPolicy f e := rfl

@[simp] theorem tabled_withPolicy (table : List (List String)) :
    (ctx.withPolicy f e).tabled table = (ctx.tabled table).withPolicy f e := rfl

@[simp] theorem untabled_withPolicy :
    (ctx.withPolicy f e).untabled = ctx.untabled.withPolicy f e := rfl

@[simp] theorem entered_withPolicy (frame : Frame) (params : Pairs) :
    (ctx.withPolicy f e).entered frame params = (ctx.entered frame params).withPolicy f e := rfl

@[simp] theorem left_withPolicy (depth : Nat) :
    (ctx.withPolicy f e).left depth = (ctx.left depth).withPolicy f e := rfl

theorem unseen_withPolicy : Unseen (σ := σ) (withPolicy f e) := by
  constructor <;> intros <;> rfl

end Context

/-- Nothing that `x` does depends on the policies. -/
def EvalM.Blind (x : EvalM σ α) : Prop :=
  ∀ (ctx : Context σ) (f e : Bool),
    exec x (ctx.withPolicy f e) = ((exec x ctx).1, (exec x ctx).2.withPolicy f e)

namespace EvalM.Blind

variable {action : Action σ}

theorem pure (a : α) : Blind (Pure.pure a : EvalM σ α) := fun _ _ _ => rfl

theorem throw (e : EvalError) : Blind (MonadExcept.throw e : EvalM σ α) := fun _ _ _ => rfl

theorem bind {x : EvalM σ α} {g : α → EvalM σ β} (hx : Blind x) (hg : ∀ a, Blind (g a)) :
    Blind (x >>= g) := by
  intro ctx f e
  rw [exec_bind, exec_bind, hx]
  rcases exec x ctx with ⟨_ | a, c⟩
  · rfl
  · exact hg a c f e

theorem fail (s : Step) (elapsed : Duration) (cause : String) :
    Blind (s.fail elapsed cause : EvalM σ Step) :=
  fun ctx f e => Step.exec_fail_unseen s ctx (Context.unseen_withPolicy f e) elapsed cause

theorem perform (s : Step) (expression : String) : Blind (s.perform action expression) :=
  fun ctx f e => Step.exec_perform_unseen action s expression ctx (Context.unseen_withPolicy f e)

theorem call {run : Scenario → EvalM σ Scenario} (hr : ∀ s, Blind (run s)) (s : Step)
    (expression : String) (found : Registry.Resolved) : Blind (s.call run expression found) := by
  intro ctx f e
  by_cases hc : { name := found.stepDef.name, expression } ∈ ctx.calls
  · simp [Step.exec_call, hc]
  · simp [Step.exec_call, hc, hr found.stepDef _ f e]

theorem evaluateWith {call : Step → String → Registry.Resolved → EvalM σ Step}
    (hc : ∀ s expression found, Blind (call s expression found)) (s : Step) :
    Blind (s.evaluateWith action call) := by
  have carried : ∀ expression, Blind (s.carryOut action call expression) := by
    intro expression ctx f e
    simp only [Step.exec_carryOut, Context.withPolicy_registry]
    split
    · rfl
    · exact hc s expression _ ctx f e
    · exact perform s expression ctx f e
  intro ctx f e
  simp only [Step.exec_evaluateWith, Step.exec_withTable, Context.withPolicy_resolve,
    Context.note_withPolicy, Context.tabled_withPolicy]
  split
  · exact fail _ _ _ _ f e
  · split
    · exact carried _ ctx f e
    · rw [carried]
      simp

theorem compositional (action : Action σ) : Compositional action fun _ => Blind where
  pure := pure
  throw := throw
  bind := bind
  call := call
  evaluateWith := evaluateWith

theorem scenario (s : Scenario) : Blind (s.evaluate action) := by
  intro ctx f e
  simp only [Scenario.exec_evaluate, Context.withPolicy_registry, Context.withPolicy_room]
  split
  · cases ctx.registry.add s <;> rfl
  · split
    · rfl
    · have parts := compositional action
      exact parts.body (parts.step _) s ctx f e

end EvalM.Blind

end Gherkin
