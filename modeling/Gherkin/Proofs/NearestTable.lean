import Gherkin.Proofs.Journal
import Gherkin.Proofs.ScopeOperations

/-! Data tables of steps. Each table is bound while its step is carried out, and so an action finds
the table of the nearest step under way that has one. -/
namespace Gherkin

open EvalM

variable {σ α β : Type} {action : Action σ}

/-- The action never changes an object. -/
def Action.SparesObjects (action : Action σ) : Prop :=
  ∀ expression settings scopes state,
    (action expression settings scopes state).scopes.objects = scopes.objects

/-- What was performed and the table that was in sight, if the event is a call of the action. -/
def Event.sight? : Event → Option (String × Option Json)
  | .performed text table _ _ => some (text, table)
  | _ => none

/-- The table of the first of these steps that has one. -/
def nearestTable? (steps : List Step) : Option Json :=
  (steps.find? fun s => !s.table.isEmpty).map fun s => .arr (s.table.map Json.strings)

/-- The steps under way at a moment of an evaluation with the given moments, innermost first: none
where a step of the scenario itself begins, and inside a call the step that calls and those under
way where that began. -/
inductive Moment.Within (action : Action σ) (start : List (Moment σ)) :
    Moment σ → List Step → Prop
  | outermost {m} : m ∈ start → m.callers = [] → Within action start m []
  | inside {m m' steps} : Within action start m steps → m' ∈ m.inside action →
      m'.callers.length = m.callers.length + 1 → Within action start m' (m.step :: steps)

theorem objects_frame (h : action.SparesObjects) :
    StepFrame action fun ctx c => ctx.scopes.objects.Sound →
      c.scopes.objects = ctx.scopes.objects where
  refl _ _ := rfl
  trans hab hbc hs := by
    have hb := hab hs
    exact (hbc (hb ▸ hs)).trans hb
  unbound _ _ _ := rfl
  attached _ _ _ := rfl
  acted expression _ _ := h expression _ _ _
  tabled table hc hs := by
    have hbound := hc (Objects.sound_bind hs)
    simp only [Context.untabled, Scopes.clearObject, hbound]
    exact Objects.clear_bind hs
  called frame params hc hs := (Scopes.objects_truncate _ _).trans (hc hs)

theorem nearestTable?_cons (s : Step) (steps : List Step) :
    nearestTable? (s :: steps) = (nearestTable? [s]).or (nearestTable? steps) := by
  unfold nearestTable?
  cases h : s.table.isEmpty <;> simp [h]

/-- Where a step is carried out, its own table comes before the one that is bound already. -/
theorem table_atStep (s : Step) (ctx : Context σ) :
    (ctx.atStep s).scopes.objects.get? tableObject =
      (nearestTable? [s]).or (ctx.scopes.objects.get? tableObject) := by
  unfold Context.atStep nearestTable?
  split
  · next h => simp [h]
  · next h => simp [h, Context.tabled, Scopes.bindObject, Objects.get?_bind]

theorem sound_atStep {s : Step} {ctx : Context σ} (h : ctx.scopes.objects.Sound) :
    (ctx.atStep s).scopes.objects.Sound := by
  unfold Context.atStep
  split
  · exact h
  · exact Objects.sound_bind h

/-- Where the steps of a body begin, the objects are those that the body began with. Whatever lies
deeper is left open. -/
theorem level_objects (h : action.SparesObjects) :
    Traceable action fun _ callers _ x t => ∀ o : Objects, o.Sound →
      Throughout (fun ctx => ctx.scopes.objects = o)
        (fun _ cs ctx => cs.length = callers.length → ctx.scopes.objects = o) x t where
  pure a _ _ := .pure a
  bind hx hf o ho := .bind (hx o ho) fun a => hf a o ho
  step {room callers} s _ o ho ctx hctx := by
    refine ⟨((objects_frame h).step room s ctx (hctx ▸ ho)).trans hctx, ?_⟩
    by_cases hk : ∃ k, s.move room ctx = .call k
    · obtain ⟨k, hk⟩ := hk
      rw [Step.trace_of_call action hk, List.forall_mem_cons]
      exact ⟨fun _ => hctx, fun m hm he => absurd he (Nat.ne_of_gt (lt_length_callers hm))⟩
    · rw [Step.trace_of_not_call action (not_exists.mp hk), List.forall_mem_singleton]
      exact fun _ => hctx

/-- Every moment lies within some steps, if those at which a body begins do. -/
theorem exists_within (action : Action σ) (start : List (Moment σ)) :
    Traceable action fun _ callers _ _ t => ∀ steps ctx,
      (∀ m ∈ t ctx, m.callers = callers → m.Within action start steps) →
        ∀ m ∈ t ctx, ∃ steps, m.Within action start steps where
  pure _ _ _ _ _ hm := by cases hm
  bind hx hf steps ctx hstart m hm := by
    obtain hm | ⟨a, c, hr, hm⟩ := Trace.mem_andThen.mp hm
    · exact hx steps ctx (fun m hm => hstart m (Trace.mem_andThen.mpr (.inl hm))) m hm
    · exact hf a steps c (fun m hm => hstart m (Trace.mem_andThen.mpr (.inr ⟨a, c, hr, hm⟩))) m hm
  step {room callers} s hcalled steps ctx hstart m hm := by
    have hself := hstart _ (Step.mem_trace_self action callers) rfl
    by_cases hk : ∃ k, s.move room ctx = .call k
    · obtain ⟨k, hk⟩ := hk
      rw [Step.trace_of_call action hk] at hm
      rcases List.mem_cons.mp hm with rfl | hm
      · exact ⟨steps, hself⟩
      · refine hcalled ctx k hk (s :: steps) _ (fun m hm hcallers => ?_) m hm
        refine .inside hself ?_ (by rw [hcallers, List.length_cons])
        rw [Moment.inside, Step.trace_of_call action hk]
        exact hm
    · rw [Step.trace_of_not_call action (not_exists.mp hk)] at hm
      obtain rfl := List.mem_singleton.mp hm
      exact ⟨steps, hself⟩

theorem Scenario.trace_eq_nil_or (action : Action σ) (s : Scenario) (ctx : Context σ) :
    s.trace action ctx = [] ∨ s.trace action ctx = s.bodyTrace action ctx.room [] ctx := by
  unfold Scenario.trace
  split
  · exact .inl rfl
  · exact .inr rfl

namespace Moment

variable {m m' : Moment σ} {steps : List Step}

/-- Only a step that calls a step definition has moments inside. -/
theorem call_of_mem_inside (h : m' ∈ m.inside action) :
    ∃ k, m.move = .call k ∧ m' ∈ k.found.stepDef.bodyTrace action (m.room - 1) (k :: m.callers)
      (m.context.entering m.step k) := by
  unfold inside at h
  by_cases hk : ∃ k, m.step.move m.room m.context = .call k
  · obtain ⟨k, hk⟩ := hk
    rw [Step.trace_of_call action hk] at h
    exact ⟨k, hk, h⟩
  · rw [Step.trace_of_not_call action (not_exists.mp hk)] at h
    cases h

theorem table_of_sight? {text : String} {table : Option Json}
    (h : (m.event? action).bind Event.sight? = some (text, table)) :
    table = (m.context.atStep m.step).scopes.objects.get? tableObject := by
  unfold event? at h
  split at h
  · cases h
  · cases h
  · split at h <;> cases h
    rfl
  · cases h

variable {s : Scenario} {ctx : Context σ}

theorem exists_within_scenario (hm : m ∈ s.trace action ctx) :
    ∃ steps, m.Within action (s.trace action ctx) steps := by
  have within := exists_within action (s.trace action ctx)
  rcases s.trace_eq_nil_or action ctx with htrace | htrace
  · rw [htrace] at hm
    cases hm
  · have hbody := within.body (within.evaluate ctx.room []) s [] ctx
    rw [← htrace] at hbody
    exact hbody (fun m hm hcallers => .outermost hm hcallers) m hm

theorem Within.length_eq {start : List (Moment σ)} (hw : m.Within action start steps) :
    steps.length = m.callers.length := by
  induction hw with
  | outermost _ hcallers => rw [hcallers, List.length_nil, List.length_nil]
  | inside _ _ hlength ih => rw [hlength, List.length_cons, ih]

/-- By induction on the calls inside which a moment lies: the table in sight is the nearest of the
steps under way. -/
theorem Within.table (h : action.SparesObjects) (hs : ctx.scopes.objects.Sound)
    (hw : m.Within action (s.trace action ctx) steps) :
    m.context.scopes.objects.Sound ∧ m.context.scopes.objects.get? tableObject =
      (nearestTable? steps).or (ctx.scopes.objects.get? tableObject) := by
  have level := level_objects h
  induction hw with
  | @outermost m hm hcallers =>
    have hsame : m.context.scopes.objects = ctx.scopes.objects := by
      rcases s.trace_eq_nil_or action ctx with htrace | htrace <;> rw [htrace] at hm
      · cases hm
      · have hbody := level.body (level.evaluate ctx.room []) s _ hs ctx rfl
        exact hbody.2 m hm (by rw [hcallers])
    rw [hsame]
    exact ⟨hs, rfl⟩
  | @inside m m' steps _ hm hlength ih =>
    obtain ⟨hsound, htable⟩ := ih
    obtain ⟨k, -, hm⟩ := call_of_mem_inside hm
    have hstep : (m.context.atStep m.step).scopes.objects.Sound := sound_atStep hsound
    have hsame : m'.context.scopes.objects = (m.context.atStep m.step).scopes.objects := by
      have hbody := level.body (level.evaluate (m.room - 1) (k :: m.callers)) k.found.stepDef _
        hstep (m.context.entering m.step k) rfl
      exact hbody.2 m' hm hlength
    rw [hsame, table_atStep, htable, nearestTable?_cons m.step steps, Option.or_assoc]
    exact ⟨hstep, rfl⟩

end Moment

/-- Whatever is performed in a scenario is told by its moments, each of which lies within the steps
that call. An action finds the table of the step that it performs, or else of the innermost calling
step that has one, or else the object that was bound when the scenario began; and after a step the
objects are those before it, whatever came of it. -/
theorem nearest_table_in_sight (h : action.SparesObjects) (s : Scenario) {ctx : Context σ}
    (hs : ctx.scopes.objects.Sound) :
    (exec (s.evaluate action) ctx).2.journal =
      ctx.journal ++ (s.trace action ctx).filterMap (·.event? action) ∧
    (∀ m ∈ s.trace action ctx, ∃ steps, m.Within action (s.trace action ctx) steps ∧
      steps.length = m.callers.length) ∧
    ∀ (m : Moment σ) steps, m.Within action (s.trace action ctx) steps →
      (∀ text table, (m.event? action).bind Event.sight? = some (text, table) →
        table = (nearestTable? (m.step :: steps)).or (ctx.scopes.objects.get? tableObject)) ∧
      (exec (m.step.evaluate action m.room) m.context).2.scopes.objects =
        m.context.scopes.objects := by
  refine ⟨(faithful_scenario action s).journal ctx, fun m hm => ?_, fun m steps hw => ?_⟩
  · obtain ⟨steps, hw⟩ := Moment.exists_within_scenario hm
    exact ⟨steps, hw, hw.length_eq⟩
  · obtain ⟨hsound, htable⟩ := hw.table h hs
    refine ⟨fun text table hsight => ?_, ?_⟩
    · rw [Moment.table_of_sight? hsight, table_atStep, htable, nearestTable?_cons m.step steps,
        Option.or_assoc]
    · exact (objects_frame h).step m.room m.step m.context hsound

theorem builtin_sparesObjects : (Action.builtin : Action σ).SparesObjects := by
  intro expression settings scopes state
  simp only [Action.builtin, Action.byRules]
  split <;> rfl

/-- A step definition of which one step has a table of its own. -/
def registration : Registry where
  stepDefs := [{ name := "I register", tags := [.stepDef], steps := [
    { keyword := .given, expression := "mode is \"new\"", table := [["mode"]] },
    { keyword := .and, expression := "guest is \"ada\"" }] }]

/-- Calls it with a table. -/
def registering : Scenario where
  name := "Registering"
  steps := [{ keyword := .when, expression := "I register", table := [["guest"], ["ada"]] }]

/-- The second step of the step definition finds the table of the step that calls. -/
theorem nearest_table_in_sight_registering :
    let ctx : Context Unit := { registry := registration, state := () }
    ∃ (m : Moment Unit) (steps : List Step) (table : Option Json),
      m.Within .builtin (registering.trace .builtin ctx) steps ∧
      (m.event? .builtin).bind Event.sight? = some ("guest is \"ada\"", table) ∧
      table = (nearestTable? (m.step :: steps)).or (ctx.scopes.objects.get? tableObject) ∧
      table.map Json.compact = some "[[\"guest\"],[\"ada\"]]" := by
  intro ctx
  have hsound : ctx.scopes.objects.Sound := fun _ hp => by cases hp
  obtain ⟨-, hwithin, htables⟩ := nearest_table_in_sight builtin_sparesObjects registering hsound
  have hseen : ("guest is \"ada\"", some "[[\"guest\"],[\"ada\"]]") ∈
      (registering.trace .builtin ctx).filterMap fun m =>
        ((m.event? .builtin).bind Event.sight?).map (Prod.map id (Option.map Json.compact)) := by
    decide +kernel
  obtain ⟨m, hm, hseen⟩ := List.mem_filterMap.mp hseen
  obtain ⟨⟨text, table⟩, hsight, hshown⟩ := Option.map_eq_some_iff.mp hseen
  obtain ⟨rfl, htable⟩ := Prod.mk.inj hshown
  obtain ⟨steps, hw, -⟩ := hwithin m hm
  exact ⟨m, steps, table, hw, hsight, (htables m steps hw).1 _ _ hsight, htable⟩

end Gherkin
