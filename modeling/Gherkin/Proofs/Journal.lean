import Gherkin.Proofs.Moments

/-! What the moments of an evaluation tell of it: all that is noted in the journal, in order, and
the error in which it ends. -/
namespace Gherkin

open EvalM

variable {σ α β : Type} {action : Action σ}

namespace Moment

def move (m : Moment σ) : Move :=
  m.step.move m.room m.context

/-- What comes of the step. -/
def outcome (action : Action σ) (m : Moment σ) : Except EvalError Step :=
  (exec (m.step.evaluate action m.room) m.context).1

/-- The moments inside the step definition that the step calls. -/
def inside (action : Action σ) (m : Moment σ) : List (Moment σ) :=
  (m.step.trace action m.room m.callers m.context).tail

/-- What the step notes itself. -/
def event? (action : Action σ) (m : Moment σ) : Option Event :=
  match m.move with
  | .unbound fault => some (.unbound fault)
  | .refused _ => none
  | .literal text =>
    if m.context.options.dryRun then none
    else
      let ctx := m.context.atStep m.step
      let done := action text ctx.settings ctx.scopes ctx.state
      some (.performed text (ctx.scopes.objects.get? tableObject) done.result done.elapsed)
  | .call k => some (.called (k.frame :: m.context.calls))

theorem event?_eq_called_iff {m : Moment σ} {chain : List Frame} :
    m.event? action = some (.called chain) ↔
      ∃ k, m.move = .call k ∧ chain = k.frame :: m.context.calls := by
  unfold event?
  split
  · next hm => simp [hm]
  · next hm => simp [hm]
  · next hm =>
    simp only [hm, reduceCtorEq, false_and, exists_false, iff_false]
    split <;> simp
  · next k hm => simp [hm, eq_comm]

end Moment

namespace Context

variable (s : Step) (ctx : Context σ)

@[simp] theorem journal_atStep : (ctx.atStep s).journal = ctx.journal := by
  unfold atStep
  split <;> rfl

@[simp] theorem options_atStep : (ctx.atStep s).options = ctx.options := by
  unfold atStep
  split <;> rfl

@[simp] theorem journal_afterStep : (ctx.afterStep s).journal = ctx.journal := by
  unfold afterStep
  split <;> rfl

theorem journal_entering (k : Caller) :
    (ctx.entering s k).journal = ctx.journal ++ [.called (k.frame :: ctx.calls)] := by
  rw [entering, entered, note, calls_atStep, journal_atStep]

end Context

/-- Why a step is refused whose text stands for a step definition. -/
theorem Registry.resolve_ne_recursion {r : Registry} {text : String} (name expression : String) :
    r.resolve text ≠ .error (.infiniteRecursion name expression) := by
  unfold resolve
  split
  · simp
  · split <;> simp

theorem Registry.add_ne_recursion {r : Registry} {s : Scenario} (name expression : String) :
    r.add s ≠ .error (.infiniteRecursion name expression) := by
  unfold add
  split
  · simp
  · split <;> simp

/-- A step is refused for recursion only if its text stands for a step definition, and then exactly
if the call repeats one that has not returned or lies too deep. -/
theorem Step.move_eq_recursion_iff {s : Step} {room : Nat} {ctx : Context σ} {name text : String} :
    s.move room ctx = .refused (.infiniteRecursion name text) ↔
      ∃ found, Reference.interpolate ctx.resolve s.expression = .ok text ∧
        ctx.registry.resolve text = .ok (some found) ∧ found.stepDef.name = name ∧
        (room = 0 ∨ { name, expression := text } ∈ ctx.calls) := by
  unfold move
  split
  · next hi => simp [hi]
  · next text' hi =>
    rw [hi]
    constructor
    · intro hm
      rcases hr : ctx.registry.resolve text' with e | _ | found <;> rw [hr] at hm <;>
        dsimp only at hm
      · cases hm
        exact absurd hr (Registry.resolve_ne_recursion _ _)
      · cases hm
      · split at hm <;> cases hm
        next hfull => exact ⟨found, rfl, hr, rfl, hfull⟩
    · rintro ⟨found, ⟨⟩, hr, rfl, hfull⟩
      simp only [hr]
      exact if_pos hfull

/-- All that `x` notes is noted at these moments, a step among them that ends in an error ends `x`,
and `x` ends for recursion only if such a step does. -/
structure Faithful (action : Action σ) (x : EvalM σ α) (t : Trace σ) : Prop where
  journal : ∀ ctx, (exec x ctx).2.journal = ctx.journal ++ (t ctx).filterMap (·.event? action)
  raised : ∀ ctx e, (∃ m ∈ t ctx, m.outcome action = .error e) → (exec x ctx).1 = .error e
  recursion : ∀ ctx name text,
    (exec x ctx).1 = .error (.stepDef (.infiniteRecursion name text)) →
      ∃ m ∈ t ctx, m.move = .refused (.infiniteRecursion name text)

namespace Faithful

/-- What notes nothing and does not end for recursion has no moments to tell of. -/
theorem of_silent {x : EvalM σ α} (hj : ∀ ctx, (exec x ctx).2.journal = ctx.journal)
    (hr : ∀ ctx name text, (exec x ctx).1 ≠ .error (.stepDef (.infiniteRecursion name text))) :
    Faithful action x .none where
  journal ctx := by simp [hj, Trace.none]
  raised _ _ h := by
    obtain ⟨_, hm, _⟩ := h
    cases hm
  recursion ctx name text h := absurd h (hr ctx name text)

theorem pure (a : α) : Faithful action (Pure.pure a) .none :=
  of_silent (fun _ => rfl) fun _ _ _ h => by cases h

theorem bind {x : EvalM σ α} {t : Trace σ} {f : α → EvalM σ β} {u : α → Trace σ}
    (hx : Faithful action x t) (hf : ∀ a, Faithful action (f a) (u a)) :
    Faithful action (x >>= f) (t.andThen x u) where
  journal ctx := by
    have hj := hx.journal ctx
    rw [exec_bind]
    unfold Trace.andThen
    rcases hr : exec x ctx with ⟨_ | a, c⟩ <;> rw [hr] at hj <;> dsimp only at hj ⊢
    · simpa using hj
    · rw [(hf a).journal, hj, List.filterMap_append, List.append_assoc]
  raised ctx e h := by
    obtain ⟨m, hm, ho⟩ := h
    have hfirst := hx.raised ctx e
    rw [exec_bind]
    obtain hm | ⟨a, c, hr, hm⟩ := Trace.mem_andThen.mp hm
    · rcases hr : exec x ctx with ⟨e' | a, c⟩ <;> rw [hr] at hfirst <;> cases hfirst ⟨m, hm, ho⟩
      rfl
    · rw [hr]
      exact (hf a).raised c e ⟨m, hm, ho⟩
  recursion ctx name text h := by
    have hfirst := hx.recursion ctx name text
    rw [exec_bind] at h
    rcases hr : exec x ctx with ⟨e | a, c⟩ <;> rw [hr] at h hfirst <;> dsimp only at h
    · cases h
      obtain ⟨m, hm, ho⟩ := hfirst rfl
      exact ⟨m, Trace.mem_andThen.mpr (.inl hm), ho⟩
    · obtain ⟨m, hm, ho⟩ := (hf a).recursion c name text h
      exact ⟨m, Trace.mem_andThen.mpr (.inr ⟨a, c, hr, hm⟩), ho⟩

/-- It is enough to agree, in each context, with a computation that these moments tell of. -/
theorem of_agree {x : EvalM σ α} {t : Trace σ}
    (h : ∀ ctx, ∃ y u, Faithful action y u ∧ exec x ctx = exec y ctx ∧ t ctx = u ctx) :
    Faithful action x t where
  journal ctx := by
    obtain ⟨y, u, hf, hx, ht⟩ := h ctx
    rw [hx, ht, hf.journal]
  raised ctx e := by
    obtain ⟨y, u, hf, hx, ht⟩ := h ctx
    rw [hx, ht]
    exact hf.raised ctx e
  recursion ctx name text := by
    obtain ⟨y, u, hf, hx, ht⟩ := h ctx
    rw [hx, ht]
    exact hf.recursion ctx name text

end Faithful

/-- What a step notes that calls nothing, the step itself tells. -/
theorem Step.journal_of_not_call (action : Action σ) {s : Step} {room : Nat} {ctx : Context σ}
    (h : ∀ k, s.move room ctx ≠ .call k) (callers : List Caller) :
    (exec (s.evaluate action room) ctx).2.journal = ctx.journal ++
      (Moment.event? action { context := ctx, step := s, room, callers }).toList := by
  unfold Moment.event? Moment.move
  dsimp only
  split
  · next hm =>
    rw [exec_of_unbound action hm]
    rfl
  · next hm => simp [exec_of_refused action hm]
  · next text hm =>
    rw [exec_of_literal action hm, exec_perform]
    dsimp only
    rw [Context.options_atStep, Context.journal_afterStep]
    split
    · simp
    · rw [← Context.journal_atStep s ctx]
      split <;> rfl
  · next k hm => exact absurd hm (h k)

/-- A step that ends in an error without calling anything was refused. -/
theorem Step.error_of_not_call {s : Step} {room : Nat} {ctx : Context σ} {e : EvalError}
    (h : ∀ k, s.move room ctx ≠ .call k) (he : (exec (s.evaluate action room) ctx).1 = .error e) :
    ∃ fault, e = .stepDef fault ∧ s.move room ctx = .refused fault := by
  rcases hm : s.move room ctx with fault | fault | text | k
  · obtain ⟨_, hf⟩ := Step.exec_fail s (ctx.note (.unbound fault)) Duration.zero fault.message
    rw [exec_of_unbound action hm, hf] at he
    cases he
  · rw [exec_of_refused action hm] at he
    cases he
    exact ⟨fault, rfl, rfl⟩
  · rw [exec_of_literal action hm, exec_perform] at he
    dsimp only at he
    split at he
    · cases he
    · split at he <;> cases he
  · exact absurd hm (h k)

theorem faithful_step (action : Action σ) :
    Traceable action fun _ _ _ x t => Faithful action x t where
  pure := .pure
  bind := .bind
  step {room callers} s hcalled := by
    refine ⟨fun ctx => ?_, fun ctx e h => ?_, fun ctx name text h => ?_⟩ <;>
      by_cases hk : ∃ k, s.move room ctx = .call k
    · obtain ⟨k, hk⟩ := hk
      have hj := (hcalled ctx k hk).journal (ctx.entering s k)
      rw [Context.journal_entering] at hj
      rw [Step.trace_of_call action hk, Step.exec_of_call action hk]
      simpa [Moment.event?, Moment.move, hk, Context.left] using hj
    · have hj := Step.journal_of_not_call action (not_exists.mp hk) callers
      rw [Step.trace_of_not_call action (not_exists.mp hk), hj]
      cases he : Moment.event? action { context := ctx, step := s, room, callers } <;> simp [he]
    · obtain ⟨k, hk⟩ := hk
      obtain ⟨m, hm, ho⟩ := h
      rw [Step.trace_of_call action hk] at hm
      rcases List.mem_cons.mp hm with rfl | hm
      · exact ho
      · have he := (hcalled ctx k hk).raised _ e ⟨m, hm, ho⟩
        rw [Step.exec_of_call action hk]
        dsimp only
        rw [he]
        rfl
    · obtain ⟨m, hm, ho⟩ := h
      rw [Step.trace_of_not_call action (not_exists.mp hk)] at hm
      obtain rfl := List.mem_singleton.mp hm
      exact ho
    · obtain ⟨k, hk⟩ := hk
      rw [Step.exec_of_call action hk] at h
      rcases hb : exec (k.found.stepDef.evaluateBody (Step.evaluate action (room - 1)))
        (ctx.entering s k) with ⟨e | done, c⟩ <;> rw [hb] at h <;> cases h
      obtain ⟨m, hm, ho⟩ := (hcalled ctx k hk).recursion _ name text (congrArg Prod.fst hb)
      rw [Step.trace_of_call action hk]
      exact ⟨m, List.mem_cons_of_mem _ hm, ho⟩
    · obtain ⟨fault, hf, hm⟩ := Step.error_of_not_call (not_exists.mp hk) h
      cases hf
      rw [Step.trace_of_not_call action (not_exists.mp hk)]
      exact ⟨_, List.mem_singleton_self _, hm⟩

theorem faithful_scenario (action : Action σ) (s : Scenario) :
    Faithful action (s.evaluate action) (s.trace action) := by
  have steps := faithful_step action
  refine .of_agree fun ctx => ?_
  unfold Scenario.trace
  cases hs : s.isStepDef with
  | true =>
    refine ⟨_, .none, .of_silent (fun ctx => ?_) (fun ctx name text => ?_), rfl, rfl⟩ <;>
      rw [Scenario.exec_evaluate, if_pos hs]
    · split <;> rfl
    · split
      · next fault hadd =>
        rintro ⟨⟩
        exact Registry.add_ne_recursion name text hadd
      · simp
  | false =>
    rw [Scenario.exec_evaluate, if_neg (by simp [hs])]
    cases s.isIgnored with
    | true => exact ⟨_, .none, .pure _, rfl, rfl⟩
    | false => exact ⟨_, _, steps.body (steps.evaluate ctx.room []) s, rfl, rfl⟩

theorem faithful_parts (action : Action σ) :
    FeatureTraceable action fun _ x t => Faithful action x t where
  pure := .pure
  bind := .bind
  under hf := .of_agree fun ctx => ⟨_, _, hf ctx.options, rfl, rfl⟩
  scenario := faithful_scenario action
  unloadable _ _ := .of_silent (fun _ => rfl) fun _ _ _ h => by cases h
  loaded _ := .of_silent (fun _ => rfl) fun _ _ _ h => by cases h

theorem faithful_feature (action : Action σ) (f : Feature) :
    Faithful action (f.evaluate action) (f.trace action) := by
  have parts := (faithful_parts action).parts f
  refine ⟨fun ctx => ?_, fun ctx e h => ?_, fun ctx name text h => ?_⟩
  · have hj := parts.journal ctx
    rw [Feature.exec_evaluate]
    rcases hp : exec (f.evaluateParts action) ctx with ⟨_ | done, c⟩ <;> rw [hp] at hj
    · exact hj
    · rw [← hj]
      unfold Feature.concluded
      dsimp only
      split <;> rfl
  · have he := parts.raised ctx e h
    rw [Feature.exec_evaluate]
    rcases hp : exec (f.evaluateParts action) ctx with ⟨_ | done, c⟩ <;> rw [hp] at he <;>
      cases he
    rfl
  · apply parts.recursion ctx name text
    rw [Feature.exec_evaluate] at h
    rcases hp : exec (f.evaluateParts action) ctx with ⟨_ | done, c⟩ <;> rw [hp] at h <;> cases h
    rfl

end Gherkin
