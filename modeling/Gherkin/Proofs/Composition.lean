import Gherkin.Proofs.Execution

/-! Properties of evaluations that follow from the same property of their parts. The recursion of
evaluation is followed here, once for all of them. -/
namespace Gherkin

variable {σ : Type}

/-- A property that an evaluation has as soon as its parts have it. -/
structure Compositional (action : Action σ) (P : (α : Type) → EvalM σ α → Prop) : Prop where
  pure : ∀ {α} (a : α), P α (pure a)
  throw : ∀ {α} (e : EvalError), P α (throw e)
  bind : ∀ {α β} {x : EvalM σ α} {f : α → EvalM σ β}, P α x → (∀ a, P β (f a)) → P β (x >>= f)
  call : ∀ {run : Scenario → EvalM σ Scenario}, (∀ s, P _ (run s)) →
    ∀ (s : Step) expression found, P _ (s.call run expression found)
  evaluateWith : ∀ {call : Step → String → Registry.Resolved → EvalM σ Step},
    (∀ s expression found, P _ (call s expression found)) →
    ∀ s : Step, P _ (s.evaluateWith action call)

namespace Compositional

variable {action : Action σ} {P : (α : Type) → EvalM σ α → Prop} (h : Compositional action P)
  {evaluate : Step → EvalM σ Step}

include h

theorem steps (he : ∀ s, P _ (evaluate s)) (ss : List Step) : P _ (evaluateSteps evaluate ss) := by
  induction ss with
  | nil => exact h.pure _
  | cons s ss ih =>
    refine h.bind (he s) fun done => ?_
    split
    · exact h.pure _
    · exact h.bind ih fun _ => h.pure _

theorem body (he : ∀ s, P _ (evaluate s)) (s : Scenario) : P _ (s.evaluateBody evaluate) := by
  unfold Scenario.evaluateBody
  split
  · exact h.bind (h.steps he _) fun _ => h.pure _
  · refine h.bind (h.steps he _) fun bs => ?_
    dsimp only
    split
    · exact h.pure _
    · exact h.bind (h.steps he _) fun _ => h.pure _

/-- By induction on how deep calls may still be nested. -/
theorem step (room : Nat) (s : Step) : P _ (s.evaluate action room) := by
  induction room generalizing s with
  | zero => exact h.evaluateWith (fun _ _ _ => h.throw _) s
  | succ room ih => exact h.evaluateWith (fun s => h.call (h.body ih) s) s

end Compositional

end Gherkin
