import Gherkin.Proofs.EvaluationShape
import Gherkin.Proofs.Moments
import Gherkin.Proofs.Resolution
import Gherkin.Proofs.Restoration

/-! A step definition that no step asks for. Declaring it changes the registry and nothing else that
an evaluation sees, and the status of the feature not unless there is nothing in it to be marked. -/
namespace Gherkin

open EvalM

namespace Registry

variable {r r' : Registry} {s : Scenario} {name text : String}

/-- A step of this text may be resolved to what is registered under the name. -/
def Answers (name text : String) : Prop :=
  name = text ∨ (Template.values? name text).isSome = true

instance (name text : String) : Decidable (Answers name text) :=
  inferInstanceAs (Decidable (_ ∨ _))

/-- Only what is registered under one name differs. -/
def Apart (name : String) (r r' : Registry) : Prop :=
  r'.stepDefs.filter (·.name != name) = r.stepDefs.filter (·.name != name)

theorem matching_filter (h : Template.matching name text = .ok none) (ss : List Scenario) :
    matching text (ss.filter (·.name != name)) = matching text ss := by
  induction ss with
  | nil => rfl
  | cons s ss ih =>
    by_cases hs : s.name = name
    · rw [List.filter_cons_of_neg (by simpa using hs), ih, matching, hs, h]
      rcases matching text ss with _ | _ <;> rfl
    · rw [List.filter_cons_of_pos (by simpa using hs), matching, matching, ih]

theorem find?_filter_of_ne {other : String} (h : name ≠ other) (ss : List Scenario) :
    (ss.filter (·.name != name)).find? (·.name == other) = ss.find? (·.name == other) := by
  rw [List.find?_filter]
  congr 1
  funext s
  by_cases hs : s.name = other
  · simp [hs, h.symm]
  · simp [hs]

theorem insert_filter_of_ne (h : s.name ≠ name) (ss : List Scenario) :
    (insert s ss).filter (·.name != name) = insert s (ss.filter (·.name != name)) := by
  induction ss with
  | nil => simp [insert, h]
  | cons t ts ih =>
    by_cases ht : t.name = s.name
    · simp [insert, ht, h]
    · by_cases htn : t.name = name
      · have hns : name ≠ s.name := h.symm
        simp [insert, htn, hns, ih]
      · simp [insert, ht, htn, ih]

theorem insert_filter_of_eq (h : s.name = name) (ss : List Scenario) :
    (insert s ss).filter (·.name != name) = ss.filter (·.name != name) := by
  induction ss with
  | nil => simp [insert, h]
  | cons t ts ih =>
    by_cases ht : t.name = s.name
    · simp [insert, ht, h]
    · have htn : t.name ≠ name := h ▸ ht
      simp [insert, ht, htn, ih]

namespace Apart

theorem get?_eq {other : String} (h : Apart name r r') (hne : name ≠ other) :
    r'.get? other = r.get? other := by
  rw [get?, ← find?_filter_of_ne hne, h, find?_filter_of_ne hne, get?]

/-- No text finds the difference unless the name answers it. -/
theorem resolve_eq (h : Apart name r r') (hname : Admissible name) (htext : ¬Answers name text) :
    r'.resolve text = r.resolve text := by
  obtain ⟨hne, hvalues⟩ := not_or.mp htext
  have hmatching := Template.matching_of_check hname.distinct text
  rw [Option.not_isSome_iff_eq_none.mp hvalues] at hmatching
  rw [resolve, resolve, h.get?_eq hne, ← matching_filter hmatching r'.stepDefs, h,
    matching_filter hmatching]

/-- A registration is refused by both registries or by none. -/
theorem add (h : Apart name r r') (s : Scenario) :
    (∃ fault, r.add s = .error fault ∧ r'.add s = .error fault) ∨
      ∃ t t', r.add s = .ok t ∧ r'.add s = .ok t' ∧ Apart name t t' := by
  unfold Registry.add
  split
  · exact .inl ⟨_, rfl, rfl⟩
  · split
    · exact .inl ⟨_, rfl, rfl⟩
    · refine .inr ⟨_, _, rfl, rfl, ?_⟩
      unfold Apart
      by_cases hs : s.name = name
      · rw [insert_filter_of_eq (by simpa using hs), insert_filter_of_eq (by simpa using hs)]
        exact h
      · have hne : name ≠ (asStepDef s).name := by simpa using Ne.symm hs
        rw [insert_filter_of_ne (by simpa using hs), insert_filter_of_ne (by simpa using hs), h,
          h.get?_eq hne]

end Apart

theorem apart_insert (r : Registry) (s : Scenario) :
    Apart s.name r { stepDefs := insert (r.stored s) r.stepDefs } :=
  insert_filter_of_eq (stored_name r s) r.stepDefs

end Registry

variable {σ α β : Type} {action : Action σ} {name : String}

namespace Context

/-- With another registry. -/
def withRegistry (registry : Registry) (ctx : Context σ) : Context σ :=
  { ctx with registry }

variable (registry : Registry) (ctx : Context σ)

@[simp] theorem withRegistry_scopes : (ctx.withRegistry registry).scopes = ctx.scopes := rfl

@[simp] theorem withRegistry_resolve : (ctx.withRegistry registry).resolve = ctx.resolve := rfl

@[simp] theorem note_withRegistry (event : Event) :
    (ctx.withRegistry registry).note event = (ctx.note event).withRegistry registry := rfl

@[simp] theorem left_withRegistry (depth : Nat) :
    (ctx.withRegistry registry).left depth = (ctx.left depth).withRegistry registry := rfl

@[simp] theorem atStep_withRegistry (s : Step) :
    (ctx.withRegistry registry).atStep s = (ctx.atStep s).withRegistry registry := by
  unfold atStep
  split <;> rfl

@[simp] theorem afterStep_withRegistry (s : Step) :
    (ctx.withRegistry registry).afterStep s = (ctx.afterStep s).withRegistry registry := by
  unfold afterStep
  split <;> rfl

@[simp] theorem registry_afterStep (s : Step) : (ctx.afterStep s).registry = ctx.registry := by
  unfold afterStep
  split <;> rfl

theorem entering_withRegistry (s : Step) (k : Caller) :
    (ctx.withRegistry registry).entering s k = (ctx.entering s k).withRegistry registry := by
  rw [entering, atStep_withRegistry]
  rfl

theorem unseen_withRegistry : Unseen (σ := σ) (withRegistry registry) := by
  constructor <;> intros <;> rfl

end Context

/-- The text of the step is none that the name answers. -/
def Moment.Ignores (name : String) (m : Moment σ) : Prop :=
  ∀ text, Reference.interpolate m.context.resolve m.step.expression = .ok text →
    ¬Registry.Answers name text

instance (name : String) (m : Moment σ) : Decidable (m.Ignores name) :=
  match h : Reference.interpolate m.context.resolve m.step.expression with
  | .error _ => isTrue fun text ht => by simp [h] at ht
  | .ok text => decidable_of_iff (¬Registry.Answers name text) <| by simp [Moment.Ignores, h]

/-- As long as no step at these moments asks for the name, `x` does the same whatever is registered
under it. -/
def Unmoved (name : String) (x : EvalM σ α) (t : Trace σ) : Prop :=
  ∀ ctx registry, ctx.registry.Apart name registry → (∀ m ∈ t ctx, m.Ignores name) →
    ∃ registry', (exec x ctx).2.registry.Apart name registry' ∧
      exec x (ctx.withRegistry registry) =
        ((exec x ctx).1, (exec x ctx).2.withRegistry registry')

namespace Unmoved

theorem pure (a : α) : Unmoved name (Pure.pure a : EvalM σ α) .none :=
  fun _ registry h _ => ⟨registry, h, rfl⟩

theorem bind {x : EvalM σ α} {t : Trace σ} {f : α → EvalM σ β} {u : α → Trace σ}
    (hx : Unmoved name x t) (hf : ∀ a, Unmoved name (f a) (u a)) :
    Unmoved name (x >>= f) (t.andThen x u) := by
  intro ctx registry h hm
  obtain ⟨registry₁, h₁, hx₁⟩ := hx ctx registry h fun m hmem =>
    hm m (Trace.mem_andThen.mpr (.inl hmem))
  rw [exec_bind, exec_bind, hx₁]
  rcases hr : exec x ctx with ⟨_ | a, c⟩ <;> rw [hr] at h₁
  · exact ⟨registry₁, h₁, rfl⟩
  · exact hf a c registry₁ h₁ fun m hmem => hm m (Trace.mem_andThen.mpr (.inr ⟨a, c, hr, hmem⟩))

end Unmoved

theorem Step.move_of_apart {s : Step} {room : Nat} {ctx : Context σ} {registry : Registry}
    (hname : Registry.Admissible name) (h : ctx.registry.Apart name registry)
    (hm : ∀ text, Reference.interpolate ctx.resolve s.expression = .ok text →
      ¬Registry.Answers name text) :
    s.move room (ctx.withRegistry registry) = s.move room ctx := by
  unfold move
  rw [Context.withRegistry_resolve]
  split
  · rfl
  · next text hi =>
    rw [show (ctx.withRegistry registry).registry = registry from rfl, h.resolve_eq hname (hm text hi)]
    rfl

theorem unmoved_step (action : Action σ) (hname : Registry.Admissible name) :
    Traceable action fun _ _ _ x t => Unmoved name x t where
  pure := .pure
  bind := .bind
  step {room callers} s hcalled := by
    intro ctx registry h hm
    have hself : Moment.Ignores name { context := ctx, step := s, room, callers } :=
      hm _ (Step.mem_trace_self action callers)
    have hmove : s.move room (ctx.withRegistry registry) = s.move room ctx :=
      Step.move_of_apart hname h hself
    have hstep : (ctx.atStep s).registry.Apart name registry := by rwa [Context.registry_atStep]
    have hunseen := Context.unseen_withRegistry (σ := σ) registry
    rcases hk : s.move room ctx with fault | fault | text | k <;> rw [hk] at hmove
    · have hkeeps := (definitions_frame action).fail s Duration.zero fault.message
        (ctx.note (.unbound fault))
      rw [Step.exec_of_unbound action hk, Step.exec_of_unbound action hmove,
        Context.note_withRegistry, Step.exec_fail_unseen s _ hunseen, hkeeps.1]
      exact ⟨registry, h, rfl⟩
    · rw [Step.exec_of_refused action hk, Step.exec_of_refused action hmove]
      exact ⟨registry, by simpa using hstep, by simp⟩
    · have hkeeps := (definitions_frame action).perform s text (ctx.atStep s)
      rw [Step.exec_of_literal action hk, Step.exec_of_literal action hmove,
        Context.atStep_withRegistry, Step.exec_perform_unseen action s _ _ hunseen,
        Context.registry_afterStep, hkeeps.1, Context.afterStep_withRegistry]
      exact ⟨registry, hstep, rfl⟩
    · rw [Step.trace_of_call action hk] at hm
      obtain ⟨registry', h', hbody⟩ := hcalled ctx k hk (ctx.entering s k) registry hstep
        fun m hmem => hm m (List.mem_cons_of_mem _ hmem)
      rw [Step.exec_of_call action hk, Step.exec_of_call action hmove,
        Context.entering_withRegistry, hbody]
      refine ⟨registry', ?_, ?_⟩
      · rwa [Context.registry_afterStep]
      · dsimp only
        rw [Context.left_withRegistry, Context.afterStep_withRegistry, Context.atStep_withRegistry,
          Context.withRegistry_scopes]

theorem unmoved_scenario (action : Action σ) (hname : Registry.Admissible name) (s : Scenario) :
    Unmoved name (s.evaluate action) (s.trace action) := by
  intro ctx registry h hm
  rw [Scenario.exec_evaluate, Scenario.exec_evaluate]
  unfold Scenario.trace at hm
  cases hs : s.isStepDef with
  | true =>
    simp only [if_true]
    obtain ⟨fault, hr, hr'⟩ | ⟨r, r', hr, hr', hapart⟩ := h.add s
    · rw [show (ctx.withRegistry registry).registry = registry from rfl, hr, hr']
      exact ⟨registry, h, rfl⟩
    · rw [show (ctx.withRegistry registry).registry = registry from rfl, hr, hr']
      exact ⟨r', hapart, rfl⟩
  | false =>
    cases hi : s.isIgnored with
    | true => exact ⟨registry, h, rfl⟩
    | false =>
      have steps := unmoved_step action hname
      exact steps.body (steps.evaluate ctx.room []) s ctx registry h (by simpa [hs, hi] using hm)

theorem unmoved_parts (action : Action σ) (hname : Registry.Admissible name) :
    FeatureTraceable action fun _ x t => Unmoved name x t where
  pure := .pure
  bind := .bind
  under hf ctx := hf ctx.options ctx
  scenario := unmoved_scenario action hname
  unloadable _ _ _ registry h _ := ⟨registry, h, rfl⟩
  loaded _ _ registry h _ := ⟨registry, h, rfl⟩

section Insertion

variable {d : Scenario} {ctx : Context σ}

theorem scenariosTrace_of_runsAll (h : ctx.RunsAll) (failed : Bool) (s : Scenario)
    (ss : List Scenario) :
    scenariosTrace action failed (s :: ss) ctx =
      (s.trace action).andThen (s.evaluate action)
        (fun done => scenariosTrace action (failed || done.status.isFailed) ss) ctx := by
  rw [scenariosTrace, Trace.under, if_neg (by simp [h.2]), if_neg (by simp [h.1])]

/-- A step definition that is declared in between is marked, and the other scenarios come to what
they come to without it. -/
theorem exec_evaluateScenarios_insert (hdef : d.isStepDef = true)
    (hname : Registry.Admissible d.name) (h : ctx.RunsAll) (failed : Bool)
    (before after : List Scenario)
    (hm : ∀ m ∈ scenariosTrace action failed (before ++ after) ctx, m.Ignores d.name) :
    match (exec (evaluateScenarios action failed (before ++ after)) ctx).1 with
    | .error e => (exec (evaluateScenarios action failed (before ++ d :: after)) ctx).1 = .error e
    | .ok ts => ∃ done rest, ts = done ++ rest ∧ done.length = before.length ∧
        (exec (evaluateScenarios action failed (before ++ d :: after)) ctx).1 =
          .ok (done ++ d.marked .loaded :: rest) := by
  induction before generalizing ctx failed with
  | nil =>
    have hloaded : (failed || (d.marked .loaded).status.isFailed) = failed := by
      rw [marked_not_failed d rfl (by simp), Bool.or_false]
    obtain ⟨registry', -, hafter⟩ := (unmoved_parts action hname).scenarios failed after ctx _
      (Registry.apart_insert ctx.registry d) hm
    rw [List.nil_append, List.nil_append, exec_evaluateScenarios_of_runsAll action h,
      Scenario.exec_evaluate, if_pos hdef, Registry.add_of_admissible hname]
    dsimp only
    rw [hloaded, ← Context.withRegistry, hafter]
    dsimp only
    cases (exec (evaluateScenarios action failed after) ctx).1 with
    | error e => rfl
    | ok ts => exact ⟨[], ts, rfl, rfl, rfl⟩
  | cons s before ih =>
    have hoptions := (options_frame action).scenario s ctx
    rw [List.cons_append, scenariosTrace_of_runsAll h] at hm
    rw [List.cons_append, List.cons_append, exec_evaluateScenarios_of_runsAll action h,
      exec_evaluateScenarios_of_runsAll action h]
    rcases hs : exec (s.evaluate action) ctx with ⟨e | t, c⟩
    · rfl
    · rw [hs] at hoptions
      dsimp only
      have hrest := ih (by rwa [Context.RunsAll, hoptions]) (failed || t.status.isFailed)
        fun m hmem => hm m (Trace.mem_andThen.mpr (.inr ⟨t, c, hs, hmem⟩))
      split at hrest
      · next e he => rw [he, hrest]; rfl
      · next ts hts =>
        obtain ⟨done, rest, rfl, hlen, hd⟩ := hrest
        rw [hts, hd]
        exact ⟨t :: done, rest, rfl, by simp [hlen], rfl⟩

end Insertion

theorem status_marked_loaded {s : Scenario} (h : s.allSteps ≠ []) :
    (s.marked .loaded).status = .loaded :=
  Status.fold_loaded (by simpa using h) (marked_status s .loaded)

theorem Scenario.Finished.status_ne_loaded {t : Scenario} (h : t.Finished)
    (hs : t.isStepDef = false) : t.status ≠ .loaded :=
  (Status.settled_fold (h.staged hs).settled).2

/-- Of scenarios that all run, those that declare nothing are not merely registered. -/
theorem exists_status_ne_loaded {action : Action σ} {ctx c : Context σ} (h : ctx.RunsAll)
    {before after done rest : List Scenario} (hlen : done.length = before.length)
    (hx : exec (evaluateScenarios action false (before ++ after)) ctx = (.ok (done ++ rest), c))
    (hs : ∃ s ∈ after, s.isStepDef = false) : ∃ t ∈ rest, t.status ≠ .loaded := by
  have hbecome := scenarios_become hx
  have hall : ¬(done ++ rest).length < (before ++ after).length := fun hlt => by
    simpa [h.2] using hbecome.cut hlt
  have herased := hbecome.erased
  rw [List.take_of_length_le (by simpa using hall), List.map_append, List.map_append] at herased
  have hrest := List.append_inj_right herased (by simp [hlen])
  obtain ⟨s, hs, hdef⟩ := hs
  have hmem : s.erased ∈ rest.map (·.erased) := hrest ▸ List.mem_map_of_mem hs
  obtain ⟨t, ht, he⟩ := List.mem_map.mp hmem
  have htags : t.erased.isStepDef = s.erased.isStepDef := congrArg Scenario.isStepDef he
  have hfinished := hbecome.finished t (List.mem_append_right _ ht)
  exact ⟨t, ht, hfinished.status_ne_loaded (htags.trans hdef)⟩

/-- A declaration that was marked in between does not change what the scenarios come to together. -/
theorem sameVerdict_insert {action : Action σ} {ctx c : Context σ} (h : ctx.RunsAll)
    {before after done rest : List Scenario} (d : Scenario) (hlen : done.length = before.length)
    (hx : exec (evaluateScenarios action false (before ++ after)) ctx = (.ok (done ++ rest), c))
    (hsome : ∃ s ∈ before ++ after, s.isStepDef = false)
    (hmark : d.allSteps ≠ [] ∨ ∃ s ∈ after, s.isStepDef = false) :
    Status.SameVerdict (.fold ((done ++ d.marked .loaded :: rest).map (·.status)))
      (.fold ((done ++ rest).map (·.status))) := by
  have hx' : exec (evaluateScenarios action false ([] ++ (before ++ after))) ctx =
      (.ok ([] ++ (done ++ rest)), c) := hx
  obtain ⟨t, ht, -⟩ := exists_status_ne_loaded h rfl hx' hsome
  have hne : done.map (·.status) ++ rest.map (·.status) ≠ [] := by
    rw [← List.map_append]
    exact List.ne_nil_of_mem (List.mem_map_of_mem ht)
  have hcause := (marked_tells d .loaded rfl (by simp)).1
  rw [List.map_append, List.map_append, List.map_cons]
  refine .fold_insert hne hcause (hmark.imp status_marked_loaded fun hafter => ?_)
  obtain ⟨t, ht, hloaded⟩ := exists_status_ne_loaded h hlen hx hafter
  exact ⟨t.status, List.mem_map_of_mem ht, hloaded⟩

/-- Declaring a step definition that no step asks for does not change the verdict of a feature, if
there is a step in it to be marked, or a scenario behind it that declares nothing. -/
theorem declaration_keeps_verdict (action : Action σ) {ctx : Context σ} {f : Feature} {d : Scenario}
    {before after : List Scenario} (hf : f.scenarios = before ++ after)
    (hsome : ∃ s ∈ before ++ after, s.isStepDef = false) (hall : ctx.RunsAll)
    (hdef : d.isStepDef = true) (hname : Registry.Admissible d.name)
    (hm : ∀ m ∈ f.trace action ctx, m.Ignores d.name)
    (hmark : d.allSteps ≠ [] ∨ ∃ s ∈ after, s.isStepDef = false) :
    let declared := { f with scenarios := before ++ d :: after }
    (∀ e, (exec (f.evaluate action) ctx).1 = .error e →
      (exec (declared.evaluate action) ctx).1 = .error e) ∧
    ∀ r, (exec (f.evaluate action) ctx).1 = .ok r →
      ∃ r', (exec (declared.evaluate action) ctx).1 = .ok r' ∧
        Status.SameVerdict r'.status r.status := by
  intro declared
  have hoptions := (options_frame action).metas f.metas ctx
  unfold Feature.trace Trace.andThen at hm
  rw [Feature.exec_evaluate, Feature.exec_evaluate, Feature.evaluateParts, Feature.evaluateParts,
    exec_bind, exec_bind]
  rcases hmetas : exec (f.metas.mapM (Feature.register action)) ctx with ⟨e | metas, c⟩
  · exact ⟨fun _ h => h, fun _ h => by cases h⟩
  rw [hmetas] at hm hoptions
  have hc : c.RunsAll := by rwa [Context.RunsAll, hoptions]
  have hrun := exec_evaluateScenarios_insert hdef hname hc false before after fun m hmem =>
    hm m (List.mem_append_right _ (hf ▸ hmem))
  dsimp only
  rw [exec_bind_pure, exec_bind_pure, hf]
  rcases hs : exec (evaluateScenarios action false (before ++ after)) c with ⟨e | ts, c'⟩ <;>
    rw [hs] at hrun <;> dsimp only at hrun
  · rcases hd : exec (evaluateScenarios action false (before ++ d :: after)) c with ⟨e' | _, c''⟩ <;>
      rw [hd] at hrun <;> cases hrun
    exact ⟨fun _ h => h, fun _ h => by cases h⟩
  · obtain ⟨done, rest, rfl, hlen, hdone⟩ := hrun
    rcases hd : exec (evaluateScenarios action false (before ++ d :: after)) c with ⟨_ | _, c''⟩ <;>
      rw [hd] at hdone <;> cases hdone
    refine ⟨fun _ h => (by cases h), fun r h => ?_⟩
    cases h
    exact ⟨_, rfl, sameVerdict_insert hc d hlen hs hsome hmark⟩

/-- A step definition with a step, and one without. -/
def waiting (steps : List Step) : Scenario where
  tags := [.stepDef]
  name := "I wait"
  steps := steps

theorem declaration_keeps_verdict_waiting :
    let ctx : Context Unit := { state := () }
    let d := waiting [{ keyword := .given, expression := "time is \"late\"" }]
    let declared := { opening with scenarios := opening.scenarios ++ [d] }
    ∃ r r', (exec (opening.evaluate .builtin) ctx).1 = .ok r ∧
      (exec (declared.evaluate .builtin) ctx).1 = .ok r' ∧
      Status.SameVerdict r'.status r.status ∧ r.status.keyword = "Passed" := by
  intro ctx d declared
  have hrun : (exec (opening.evaluate .builtin) ctx).1.toOption.map (·.status.keyword) =
      some "Passed" := by decide +kernel
  obtain ⟨r, hr, hpassed⟩ := Outcome.toOption_map_eq_some.mp hrun
  have hname : Registry.Admissible d.name := by decide +kernel
  have hignores : ∀ m ∈ opening.trace .builtin ctx, m.Ignores d.name := by decide +kernel
  have hsteps : d.allSteps ≠ [] := List.cons_ne_nil _ _
  obtain ⟨r', hr', hsame⟩ := (declaration_keeps_verdict .builtin (List.append_nil _).symm
    ⟨_, List.mem_singleton_self _, rfl⟩ ⟨rfl, rfl⟩ rfl hname hignores (.inl hsteps)).2 r hr
  exact ⟨r, r', hr, hr', hsame, hpassed⟩

/-- Without a step there is nothing to be marked, and what counts as skipped decides the verdict. -/
theorem empty_declaration_skips :
    let ctx : Context Unit := { state := () }
    let declared := { opening with scenarios := opening.scenarios ++ [waiting []] }
    ctx.RunsAll ∧ (∃ s ∈ opening.scenarios, s.isStepDef = false) ∧
      (waiting []).isStepDef = true ∧ Registry.Admissible (waiting []).name ∧
      (∀ m ∈ opening.trace .builtin ctx, m.Ignores (waiting []).name) ∧
      (exec (opening.evaluate .builtin) ctx).1.toOption.map (·.status.keyword) =
        some "Passed" ∧
      (exec (declared.evaluate .builtin) ctx).1.toOption.map (·.status.keyword) =
        some "Skipped" := by
  refine ⟨⟨rfl, rfl⟩, ⟨_, List.mem_singleton_self _, rfl⟩, rfl, ?_, ?_, ?_, ?_⟩ <;> decide +kernel

end Gherkin
