import Gherkin.Proofs.Journal
import Gherkin.Proofs.Verdict

/-! Failures and statuses. A step fails by itself if its text refers to a name without a value or
the action refuses it. All these failures are noted in the journal, and the status of the feature
tells exactly the first of them. -/
namespace Gherkin

open EvalM

variable {σ : Type} {action : Action σ} {ctx c : Context σ}

namespace Event

/-- The text of a failure, if the event is one. -/
def failure? : Event → Option String
  | unbound fault => some fault.message
  | performed _ _ (.error fault) _ => some fault.message
  | _ => none

def IsFailure (e : Event) : Prop := ∃ cause, e.failure? = some cause

/-- A reference that was noted had no value, and an action had the result that was noted. -/
def Truthful (action : Action σ) (settings : Settings) : Event → Prop
  | unbound fault => ∃ (c : Context σ) (text : String), c.settings = settings ∧
    Reference.interpolate c.resolve text = .error fault
  | performed expression _ result _ =>
    ∃ scopes state, (action expression settings scopes state).result = result
  | called _ => True

/-- What the action was asked and what it answered, if the event is a call of it. -/
def answer? : Event → Option (String × Except ActionError Unit)
  | performed expression _ result _ => some (expression, result)
  | _ => none

end Event

/-- The action itself keeps a log of what it was asked and what it answered. -/
def Action.Logs (action : Action σ) (log : σ → List (String × Except ActionError Unit)) : Prop :=
  ∀ expression settings scopes state,
    let done := action expression settings scopes state
    log done.state = log state ++ [(expression, done.result)]

/-- The events noted between two contexts, the first failure among them being `failure`. -/
def Reports (ctx c : Context σ) (failure : Option String) : Prop :=
  ∃ events, c.journal = ctx.journal ++ events ∧ events.findSome? Event.failure? = failure

theorem Scenario.cause?_status (s : Scenario) :
    s.status.cause? = s.allSteps.findSome? (·.status.cause?) := by
  rw [Scenario.status, Status.cause?_fold, List.findSome?_map]
  rfl

theorem Scenario.isFailed_status (s : Scenario) :
    s.status.isFailed = s.allSteps.any (·.status.isFailed) := by
  rw [Bool.eq_iff_iff, Scenario.status, Status.isFailed_fold, List.any_eq_true]
  constructor
  · rintro ⟨_, hp, hf⟩
    obtain ⟨t, ht, rfl⟩ := List.mem_map.mp hp
    exact ⟨t, ht, hf⟩
  · exact fun ⟨t, ht, hf⟩ => ⟨_, List.mem_map_of_mem ht, hf⟩

theorem Feature.cause?_status (f : Feature) :
    f.status.cause? = f.scenarios.findSome? (·.status.cause?) := by
  rw [Feature.status, Status.cause?_fold, List.findSome?_map]
  rfl

theorem findSome?_cons_or {α β : Type} (f : α → Option β) (a : α) (as : List α) :
    (a :: as).findSome? f = (f a).or (as.findSome? f) := by
  rw [List.findSome?_cons]
  cases f a <;> rfl

namespace Reports

theorem of_journal_eq (h : c.journal = ctx.journal) : Reports ctx c none :=
  ⟨[], by simp [h], rfl⟩

theorem trans {a b c : Context σ} {f g : Option String} (h₁ : Reports a b f)
    (h₂ : Reports b c g) : Reports a c (f.or g) := by
  obtain ⟨es, hes, rfl⟩ := h₁
  obtain ⟨fs, hfs, rfl⟩ := h₂
  exact ⟨es ++ fs, by rw [hfs, hes, List.append_assoc], List.findSome?_append⟩

end Reports

/-- Whenever `x` succeeds, its status is settled and tells the first failure that `x` noted. -/
def EvalM.Tells {α : Type} (status : α → Status) (x : EvalM σ α) : Prop :=
  ∀ ctx a c, exec x ctx = (.ok a, c) → Reports ctx c (status a).cause? ∧ (status a).Settled

theorem fail_ok {s t : Step} {elapsed : Duration} {cause : String}
    (h : exec (s.fail elapsed cause) ctx = (.ok t, c)) :
    t.status = .failed elapsed cause ∧ c.journal = ctx.journal := by
  obtain ⟨_, he⟩ := Step.exec_fail s ctx elapsed cause
  rw [he] at h
  cases h
  exact ⟨rfl, rfl⟩

/-- The failure of a step is the one noted just before. -/
theorem fail_tells {s t : Step} {e : Event} {elapsed : Duration} {cause : String}
    (he : e.failure? = some cause) (hj : ctx.journal = c.journal ++ [e]) {c' : Context σ}
    (h : exec (s.fail elapsed cause) ctx = (.ok t, c')) :
    Reports c c' t.status.cause? ∧ t.status.Settled := by
  obtain ⟨ht, hc⟩ := fail_ok h
  rw [ht]
  exact ⟨⟨[e], hc.trans hj, by simp [he, Status.cause?]⟩, by simp⟩

theorem perform_tells (s : Step) (expression : String) :
    Tells (·.status) (s.perform action expression) := by
  intro ctx t c h
  rw [Step.exec_perform] at h
  split at h
  · cases h
    exact ⟨.of_journal_eq rfl, by simp [Step.marked]⟩
  · dsimp only at h
    split at h
    · next hr =>
      cases h
      refine ⟨⟨_, rfl, ?_⟩, by simp [Step.marked]⟩
      simp [Event.failure?, hr, Step.marked, Status.cause?]
    · next fault hr =>
      refine fail_tells ?_ rfl h
      rw [hr, Event.failure?]

theorem call_tells {run : Scenario → EvalM σ Scenario} (hr : ∀ s, Tells (·.status) (run s))
    (s : Step) (expression : String) (found : Registry.Resolved) :
    Tells (·.status) (s.call run expression found) := by
  intro ctx t c h
  rw [Step.exec_call] at h
  dsimp only at h
  split at h
  · cases h
  · rcases hb : exec (run found.stepDef) (ctx.entered _ found.params) with ⟨_ | body, c'⟩ <;>
      rw [hb] at h <;> cases h
    obtain ⟨hreports, hsettled⟩ := hr _ _ _ _ hb
    -- Entering is noted, but it is no failure.
    exact ⟨Reports.trans (f := none) ⟨[_], rfl, rfl⟩ hreports, hsettled⟩

theorem evaluateWith_tells {call : Step → String → Registry.Resolved → EvalM σ Step}
    (hc : ∀ s expression found, Tells (·.status) (call s expression found)) (s : Step) :
    Tells (·.status) (s.evaluateWith action call) := by
  intro ctx t c h
  have carried : ∀ expression, Tells (·.status) (s.carryOut action call expression) := by
    intro expression ctx t c h
    rw [Step.exec_carryOut] at h
    split at h
    · cases h
    · exact hc _ _ _ _ _ _ h
    · exact perform_tells s expression _ _ _ h
  rw [Step.exec_evaluateWith] at h
  split at h
  · exact fail_tells (e := .unbound _) rfl rfl h
  · rw [Step.exec_withTable] at h
    split at h
    · exact carried _ _ _ _ h
    · rcases hx : exec (s.carryOut action call _) (ctx.tabled s.table) with ⟨o, c'⟩
      rw [hx] at h
      cases h
      obtain ⟨⟨events, hj, hf⟩, hs⟩ := carried _ _ _ _ hx
      exact ⟨⟨events, hj, hf⟩, hs⟩

section Lists

variable {evaluate : Step → EvalM σ Step} (he : ∀ s, Tells (·.status) (evaluate s))

include he

theorem steps_tell {ss ts : List Step} (h : exec (evaluateSteps evaluate ss) ctx = (.ok ts, c)) :
    Reports ctx c (ts.findSome? (·.status.cause?)) ∧ ∀ t ∈ ts, t.status.Settled := by
  induction ss generalizing ctx ts with
  | nil =>
    cases h
    exact ⟨.of_journal_eq rfl, by simp⟩
  | cons s ss ih =>
    obtain ⟨t, c₁, ht, ⟨hf, rfl, rfl⟩ | ⟨hf, ts, hts, rfl⟩⟩ := evaluateSteps_cons_ok h
    · obtain ⟨hr, hs⟩ := he s _ _ _ ht
      obtain ⟨cause, hcause⟩ := Status.isFailed_iff_cause?.mp hf
      refine ⟨by simpa [hcause] using hr, ?_⟩
      simp [hs, Step.marked]
    · obtain ⟨hr, hs⟩ := he s _ _ _ ht
      obtain ⟨hrs, hss⟩ := ih hts
      refine ⟨?_, by simpa using ⟨hs, hss⟩⟩
      rw [findSome?_cons_or]
      exact hr.trans hrs

theorem body_tells (s : Scenario) : Tells (·.status) (s.evaluateBody evaluate) := by
  intro ctx done c h
  suffices hd : Reports ctx c (done.allSteps.findSome? (·.status.cause?)) ∧
      ∀ t ∈ done.allSteps, t.status.Settled by
    refine ⟨?_, Status.settled_fold (by simpa using hd.2)⟩
    rw [Scenario.cause?_status]
    exact hd.1
  obtain ⟨hb, steps, hs, rfl⟩ | ⟨b, bs, c₁, hb, hbs, h⟩ := Scenario.evaluateBody_ok h
  · simpa [Scenario.allSteps, Scenario.backgroundSteps, hb] using steps_tell he hs
  obtain ⟨hr₁, hs₁⟩ := steps_tell he hbs
  simp only [Scenario.allSteps, Scenario.backgroundSteps, List.findSome?_append]
  obtain ⟨hf, rfl, rfl⟩ | ⟨hf, steps, hs, rfl⟩ := h
  · have hskipped : (s.steps.map (·.marked .skipped)).findSome? (·.status.cause?) = none := by
      simp [Step.marked, Status.cause?]
    refine ⟨by simpa [hskipped] using hr₁, ?_⟩
    simp only [Option.map_some, Option.getD_some, List.mem_append, List.mem_map]
    rintro t (ht | ⟨_, _, rfl⟩)
    · exact hs₁ t ht
    · simp [Step.marked]
  · obtain ⟨hr₂, hs₂⟩ := steps_tell he hs
    refine ⟨hr₁.trans hr₂, ?_⟩
    simp only [Option.map_some, Option.getD_some, List.mem_append]
    rintro t (ht | ht)
    · exact hs₁ t ht
    · exact hs₂ t ht

end Lists

/-- By induction on how deep calls may still be nested. -/
theorem step_tells (room : Nat) (s : Step) : Tells (·.status) (s.evaluate action room) := by
  induction room generalizing s with
  | zero => exact evaluateWith_tells (fun _ _ _ ctx t c h => by cases h) s
  | succ room ih => exact evaluateWith_tells (fun s => call_tells (body_tells ih) s) s

@[simp] theorem Scenario.allSteps_marked (s : Scenario) (status : Status) :
    (s.marked status).allSteps = s.allSteps.map (·.marked status) := by
  cases hb : s.background <;>
    simp [allSteps, backgroundSteps, marked, hb, Background.marked]

theorem marked_status (s : Scenario) (status : Status) :
    ∀ p ∈ (s.marked status).allSteps.map (·.status), p = status := by
  simp [Step.marked]

/-- A scenario that is marked without being run neither fails nor waits. -/
theorem marked_tells (s : Scenario) (status : Status) (hc : status.cause? = none)
    (hp : status ≠ .pending) :
    (s.marked status).status.cause? = none ∧ (s.marked status).status ≠ .pending := by
  have hm := marked_status s status
  constructor
  · rw [Scenario.status, Status.cause?_fold, List.findSome?_eq_none_iff]
    intro p hmem
    rw [hm p hmem, hc]
  · apply Status.fold_ne_pending
    intro p hmem
    rw [hm p hmem]
    exact hp

theorem marked_not_failed (s : Scenario) {status : Status} (hc : status.cause? = none)
    (hp : status ≠ .pending) : (s.marked status).status.isFailed = false := by
  rw [Bool.eq_false_iff, ne_eq, Status.isFailed_iff_cause?]
  simp [(marked_tells s status hc hp).1]

theorem scenario_tells {s done : Scenario} (h : exec (s.evaluate action) ctx = (.ok done, c)) :
    Reports ctx c done.status.cause? ∧ done.status ≠ .pending := by
  rw [Scenario.exec_evaluate] at h
  split at h
  · split at h
    · cases h
    · cases h
      obtain ⟨hc, hp⟩ := marked_tells s .loaded rfl (by simp)
      exact ⟨hc ▸ .of_journal_eq rfl, hp⟩
  · split at h
    · cases h
      obtain ⟨hc, hp⟩ := marked_tells s .skipped rfl (by simp)
      exact ⟨hc ▸ .of_journal_eq rfl, hp⟩
    · obtain ⟨hr, hs⟩ := body_tells (step_tells _) s _ _ _ h
      exact ⟨hr, hs.1⟩

theorem scenarios_tell {failed : Bool} {ss done : List Scenario}
    (h : exec (evaluateScenarios action failed ss) ctx = (.ok done, c)) :
    Reports ctx c (done.findSome? (·.status.cause?)) ∧ ∀ s ∈ done, s.status ≠ .pending := by
  induction ss generalizing failed ctx done with
  | nil =>
    cases h
    exact ⟨.of_journal_eq rfl, by simp⟩
  | cons s ss ih =>
    have hskip := fun s : Scenario => marked_tells s .skipped rfl (by simp)
    rw [exec_evaluateScenarios_cons] at h
    split at h
    · cases h
      exact ⟨.of_journal_eq rfl, by simp⟩
    · split at h
      · cases h
        refine ⟨?_, by simpa using ⟨(hskip s).2, fun t _ => (hskip t).2⟩⟩
        rw [List.findSome?_eq_none_iff.mpr (by simpa using ⟨(hskip s).1, fun t _ => (hskip t).1⟩)]
        exact .of_journal_eq rfl
      · rcases hd : exec (s.evaluate action) ctx with ⟨_ | d, c₁⟩ <;> rw [hd] at h
        · cases h
        · dsimp only at h
          rcases hrest : exec (evaluateScenarios action (failed || d.status.isFailed) ss) c₁
            with ⟨_ | rest, c₂⟩ <;> rw [hrest] at h <;> cases h
          obtain ⟨hr, hp⟩ := scenario_tells hd
          obtain ⟨hrs, hps⟩ := ih hrest
          refine ⟨?_, by simpa using ⟨hp, hps⟩⟩
          rw [findSome?_cons_or]
          exact hr.trans hrs

theorem metas_tell {fs done : List Feature}
    (h : exec (fs.mapM (Feature.register action)) ctx = (.ok done, c)) : Reports ctx c none := by
  induction fs generalizing ctx done with
  | nil =>
    cases h
    exact .of_journal_eq rfl
  | cons f fs ih =>
    rw [List.mapM_cons] at h
    obtain ⟨d, c₁, hd, h⟩ := exec_bind_ok.mp h
    obtain ⟨ds, c₂, hds, h⟩ := exec_bind_ok.mp h
    cases h
    obtain ⟨scenarios, c', hs, rfl, hc, rfl⟩ := Feature.register_ok hd
    have hr := (scenarios_tell hs).1
    rw [Feature.cause?_status] at hc
    rw [hc] at hr
    have hrs := ih hds
    exact hr.trans (f := none) hrs

/-- The journal only grows, by events that tell the truth and leave out no call of the action. -/
def Noted (action : Action σ) (ctx c : Context σ) : Prop :=
  c.settings = ctx.settings ∧
    ∃ events, c.journal = ctx.journal ++ events ∧
      (∀ e ∈ events, e.Truthful action ctx.settings) ∧
      ∀ log, action.Logs log → log c.state = log ctx.state ++ events.filterMap Event.answer?

/-- Where no action was called and nothing noted. -/
theorem Noted.of_eq (hs : c.settings = ctx.settings) (hj : c.journal = ctx.journal)
    (hstate : c.state = ctx.state) : Noted action ctx c :=
  ⟨hs, [], by simp [hj], by simp, by simp [hstate]⟩

theorem noted_frame (action : Action σ) : FeatureFrame action (Noted action) where
  refl ctx := .of_eq rfl rfl rfl
  trans := by
    rintro a b c ⟨hab, es, hes, hts, hls⟩ ⟨hbc, fs, hfs, htf, hlf⟩
    refine ⟨hbc.trans hab, es ++ fs, by rw [hfs, hes, List.append_assoc], ?_, ?_⟩
    · simp only [List.mem_append]
      rintro e (he | he)
      · exact hts e he
      · exact hab ▸ htf e he
    · intro log h
      rw [hlf log h, hls log h, List.filterMap_append, List.append_assoc]
  unbound {ctx fault} text h := by
    refine ⟨rfl, [_], rfl, fun e he => ?_, fun log _ => ?_⟩
    · obtain rfl := List.mem_singleton.mp he
      exact ⟨ctx, text, rfl, h⟩
    · exact (List.append_nil _).symm
  attached ctx cause := .of_eq rfl rfl rfl
  acted {ctx} expression _ := by
    refine ⟨rfl, [_], rfl, fun e he => ?_, fun log h => ?_⟩
    · obtain rfl := List.mem_singleton.mp he
      exact ⟨_, _, rfl⟩
    · exact h expression ctx.settings ctx.scopes ctx.state
  tabled table := id
  called {ctx c} frame params h := by
    obtain ⟨hs, es, hes, ht, hl⟩ := h
    have hj : c.journal = ctx.journal ++ .called (frame :: ctx.calls) :: es := by
      simpa [Context.entered, Context.note] using hes
    refine ⟨hs, _, hj, fun e he => ?_, hl⟩
    rcases List.mem_cons.mp he with rfl | he
    · trivial
    · exact ht e he
  registered _ := .of_eq rfl rfl rfl
  loaded ctx loaded := .of_eq rfl rfl rfl

/-- The text of the failure, if the step fails by itself: its text refers to a name without a value,
or it is literal and the action refuses it. -/
def Moment.failure? (action : Action σ) (m : Moment σ) : Option String :=
  match Reference.interpolate m.context.resolve m.step.expression with
  | .error fault => some fault.message
  | .ok text =>
    match m.context.registry.resolve text with
    | .ok none =>
      if m.context.options.dryRun then none
      else
        let ctx := m.context.atStep m.step
        match (action text ctx.settings ctx.scopes ctx.state).result with
        | .error fault => some fault.message
        | .ok () => none
    | _ => none

/-- The failures among the events that steps note are the failures of the steps. -/
theorem Moment.failure?_event? (m : Moment σ) :
    (m.event? action).bind Event.failure? = m.failure? action := by
  unfold event? failure?
  rcases hm : m.move with fault | fault | text | k
  · rw [Step.move_eq_unbound_iff.mp hm]
    rfl
  · obtain ⟨text, hi, hr⟩ := Step.resolve_of_refused hm
    rw [hi]
    dsimp only
    split
    · next hnone => exact absurd hnone hr
    · rfl
  · obtain ⟨hi, hr⟩ := Step.move_eq_literal_iff.mp hm
    rw [hi]
    simp only [hr]
    split
    · rfl
    · rw [Option.bind_some]
      split <;> simp [Event.failure?, *]
  · obtain ⟨⟨hi, hr⟩, -⟩ := Step.move_eq_call_iff.mp hm
    rw [hi]
    simp only [hr]
    rfl

/-- A feature fails exactly if at one of its moments a step fails by itself, and its cause is the
first of these failures. The events that are noted are those of the moments, one after the other:
no reference without a value and no call of the action is missing among them. No feature is left
waiting. -/
theorem feature_failed_iff (action : Action σ) (f : Feature) {ctx c : Context σ}
    {r : Feature.Result} (h : exec (f.evaluate action) ctx = (.ok r, c)) :
    ∃ events, c.journal = ctx.journal ++ events ∧
      events = (f.trace action ctx).filterMap (·.event? action) ∧
      (∀ e ∈ events, e.Truthful action ctx.settings) ∧
      (∀ log, action.Logs log → log c.state = log ctx.state ++ events.filterMap Event.answer?) ∧
      (r.status.isFailed = true ↔
        ∃ m ∈ f.trace action ctx, ∃ cause, m.failure? action = some cause) ∧
      r.status.cause? = (f.trace action ctx).findSome? (·.failure? action) ∧
      (r.status.isFailed = true ↔ ∃ e ∈ events, e.IsFailure) ∧
      r.status.cause? = events.findSome? Event.failure? ∧
      (r.status.isFailed = false →
        (∃ d, r.status = .passed d) ∨ r.status = .skipped ∨ r.status = .loaded) ∧
      (r.status.exitCode = 1 ↔ ∃ e ∈ events, e.IsFailure) := by
  obtain ⟨_, events, hj, ht, hl⟩ : Noted action ctx (exec (f.evaluate action) ctx).2 :=
    (noted_frame action).feature f ctx
  have hjournal := (faithful_feature action f).journal ctx
  rw [h] at hj hl hjournal
  have hevents : events = (f.trace action ctx).filterMap (·.event? action) :=
    List.append_cancel_left (hj.symm.trans hjournal)
  obtain ⟨metas, c₁, scenarios, c₂, hm, hs, hf, hstatus, loaded, rfl⟩ := Feature.evaluate_ok h
  have hcause : r.status.cause? = events.findSome? Event.failure? := by
    obtain ⟨events', hj', hr⟩ := (metas_tell hm).trans (scenarios_tell hs).1
    have : events = events' := List.append_cancel_left (hj.symm.trans hj')
    rw [this, hr, hstatus, Feature.cause?_status, hf]
    rfl
  have hpending : r.status ≠ .pending := by
    rw [hstatus, hf]
    exact Status.fold_ne_pending (by simpa using (scenarios_tell hs).2)
  have hfailed : r.status.isFailed = true ↔ ∃ e ∈ events, e.IsFailure := by
    rw [Status.isFailed_iff_cause?, hcause]
    simp only [Event.IsFailure, ← Option.isSome_iff_exists, List.findSome?_isSome_iff]
  have hmoments : r.status.cause? = (f.trace action ctx).findSome? (·.failure? action) := by
    rw [hcause, hevents, ← List.head?_filterMap, List.filterMap_filterMap, List.head?_filterMap]
    simp only [Moment.failure?_event?]
  refine ⟨events, hj, hevents, ht, hl, ?_, hmoments, hfailed, hcause,
    Status.cases_of_not_failed hpending, ?_⟩
  · rw [Status.isFailed_iff_cause?, hmoments, ← Option.isSome_iff_exists,
      List.findSome?_isSome_iff]
    simp only [Option.isSome_iff_exists]
  · rw [Status.exitCode_eq_one_iff hpending, hfailed]

/-- An action that refuses every step and keeps a log of that. -/
def refusing : Action (List (String × Except ActionError Unit)) := fun expression _ scopes log =>
  let result := .error (.failed expression)
  { result, scopes, state := log ++ [(expression, result)] }

theorem refusing_logs : refusing.Logs id := fun _ _ _ _ => rfl

/-- Two steps, the second of which is not reached if the first fails. -/
def visit : Feature where
  header := { name := "Visit" }
  scenarios := [{ name := "Door", steps := [
    { keyword := .given, expression := "knock" }, { keyword := .and, expression := "enter" }] }]

/-- The same, and before it a scenario with a reference to nothing. -/
def strangers : Feature where
  header := { name := "Strangers" }
  scenarios :=
    { name := "Hall", steps := [{ keyword := .given, expression := "enter the ${room}" }] } ::
      visit.scenarios

theorem feature_failed_iff_strangers :
    ∃ r c events, exec (strangers.evaluate refusing) { state := [] } = (.ok r, c) ∧
      c.journal = events ∧
      events.map Event.failure? = [some "unbound reference: room", some "knock"] ∧
      c.state = events.filterMap Event.answer? ∧
      (strangers.trace refusing { state := [] }).map (·.step.expression) =
        ["enter the ${room}", "knock"] ∧
      r.status.isFailed = true ∧ r.status.cause? = some "unbound reference: room" := by
  let moments := strangers.trace refusing { state := [] }
  have hok : (exec (strangers.evaluate refusing) { state := [] }).1.toOption.isSome = true := by
    decide +kernel
  have hsteps : moments.map (·.step.expression) = ["enter the ${room}", "knock"] := by
    decide +kernel
  have hnoted : (moments.filterMap (·.event? refusing)).map Event.failure? =
      [some "unbound reference: room", some "knock"] := by
    decide +kernel
  have hfirst : moments.findSome? (·.failure? refusing) = some "unbound reference: room" := by
    decide +kernel
  rcases hx : exec (strangers.evaluate refusing) { state := [] } with ⟨_ | r, c⟩
  · rw [hx] at hok
    cases hok
  · obtain ⟨events, hj, hevents, -, hl, -, hcause, -⟩ := feature_failed_iff refusing strangers hx
    rw [hfirst] at hcause
    rw [← hevents] at hnoted
    exact ⟨r, c, events, rfl, hj, hnoted, hl id refusing_logs, hsteps,
      Status.isFailed_iff_cause?.mpr ⟨_, hcause⟩, hcause⟩

end Gherkin
