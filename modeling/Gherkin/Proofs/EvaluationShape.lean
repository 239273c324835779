import Gherkin.Proofs.Failures
import Gherkin.Proofs.Outcomes
import Mathlib.Logic.Basic

/-! What evaluation makes of a feature. It writes statuses, attachments and the bodies of calls and
leaves the rest as it is; in a scenario that runs nothing but skipped steps comes after a failure,
and so it is in the body of each call. -/
namespace Gherkin

open EvalM

variable {σ : Type} {action : Action σ} {ctx c : Context σ} {room : Nat}

/-- The step without what evaluation writes. -/
def Step.erased (s : Step) : Step :=
  { s with status := .pending, attachments := [], body := none }

@[simp] theorem Step.erased_marked (s : Step) (status : Status) :
    (s.marked status).erased = s.erased := rfl

def Background.erased (b : Background) : Background :=
  { b with steps := b.steps.map (·.erased) }

/-- The examples stay, since evaluation does not touch them. -/
def Scenario.erased (s : Scenario) : Scenario :=
  { s with background := s.background.map (·.erased), steps := s.steps.map (·.erased) }

@[simp] theorem Scenario.erased_marked (s : Scenario) (status : Status) :
    (s.marked status).erased = s.erased := by
  cases hb : s.background <;>
    simp [erased, marked, hb, Background.erased, Background.marked, Function.comp_def]

def Feature.erasedScenarios (f : Feature) : Feature :=
  { f with scenarios := f.scenarios.map (·.erased) }

def Feature.erased (f : Feature) : Feature :=
  { f.erasedScenarios with metas := f.metas.map (·.erasedScenarios) }

/-- Passed or skipped up to a failure, if there is one, and skipped after it. -/
def Staged (ps : List Status) : Prop :=
  ∃ before, (∀ p ∈ before, p.isPassed = true ∨ p = .skipped) ∧
    (ps = before ∨ ∃ d cause after, ps = before ++ .failed d cause :: after ∧
      ∀ p ∈ after, p = .skipped)

/-- The steps on the left are evaluated in turn, each in the context that the one before it leaves,
and come to those on the right. After one that fails they are skipped. -/
inductive InTurn (action : Action σ) (R : Context σ → Step → Step → Prop) :
    Context σ → (room : Nat) → List Step → List Step → Prop
  | done {room : Nat} {ctx : Context σ} : InTurn action R ctx room [] []
  | next {room : Nat} {ctx c : Context σ} {s t : Step} {ss ts : List Step}
      (hx : exec (s.evaluate action room) ctx = (.ok t, c)) (h : R ctx s t)
      (ht : t.status.isFailed = false) (hs : InTurn action R c room ss ts) :
      InTurn action R ctx room (s :: ss) (t :: ts)
  | failed {room : Nat} {ctx c : Context σ} {s t : Step} {ss : List Step}
      (hx : exec (s.evaluate action room) ctx = (.ok t, c)) (h : R ctx s t)
      (ht : t.status.isFailed = true) :
      InTurn action R ctx room (s :: ss) (t :: ss.map (·.marked .skipped))

/-- What a step comes to in a context. If its text stands for a step definition, that is run in its
place; the run is recorded and gives the status. -/
inductive Step.Becomes (action : Action σ) : Context σ → Step → Step → Prop
  | unbound {ctx : Context σ} {s : Step} {fault : Unbound}
      (hi : Reference.interpolate ctx.resolve s.expression = .error fault)
      (attachments : List Attachment) :
      Becomes action ctx s { s with status := .failed Duration.zero fault.message, attachments }
  | performed {ctx : Context σ} {s : Step} {text : String} {status : Status}
      (hi : Reference.interpolate ctx.resolve s.expression = .ok text)
      (hr : ctx.registry.resolve text = .ok none)
      (hs : status.isPassed = true ∨ status.isFailed = true) (attachments : List Attachment) :
      Becomes action ctx s { s with status, attachments }
  | called {ctx : Context σ} {s : Step} {text : String} {found : Registry.Resolved}
      {room : Nat} {body : Scenario}
      (hi : Reference.interpolate ctx.resolve s.expression = .ok text)
      (hr : ctx.registry.resolve text = .ok (some found))
      (herased : body.erased = found.stepDef.erased)
      (hturn : InTurn action (Becomes action)
        ((ctx.atStep s).entered { name := found.stepDef.name, expression := text } found.params)
        room found.stepDef.allSteps body.allSteps)
      (hstaged : Staged (body.allSteps.map (·.status))) :
      Becomes action ctx s
        { s with status := Status.fold (body.allSteps.map (·.status)), body := some body }

/-- What comes of a scenario whose steps are run. -/
structure Scenario.RunsTo (action : Action σ) (room : Nat) (ctx : Context σ) (s t : Scenario) :
    Prop where
  erased : t.erased = s.erased
  inTurn : InTurn action (Step.Becomes action) ctx room s.allSteps t.allSteps
  staged : Staged (t.allSteps.map (·.status))

/-- What comes of a scenario by itself. A step definition is registered, and an ignored scenario
skipped. -/
inductive Scenario.Becomes (action : Action σ) (ctx : Context σ) : Scenario → Scenario → Prop
  | registered {s : Scenario} (hs : s.isStepDef = true) : Becomes action ctx s (s.marked .loaded)
  | ignored {s : Scenario} (hs : s.isStepDef = false) (hi : s.isIgnored = true) :
      Becomes action ctx s (s.marked .skipped)
  | executed {s t : Scenario} (hs : s.isStepDef = false) (hi : s.isIgnored = false)
      (h : s.RunsTo action ctx.room ctx t) : Becomes action ctx s t

/-- What comes of scenarios that are evaluated in order, where one may have failed before. Each is
evaluated in the context that those before it leave, unless a failure ends the run or has the rest
skipped. -/
structure ScenariosBecome (action : Action σ) (ctx : Context σ) (failed : Bool)
    (ss ts : List Scenario) : Prop where
  length_le : ts.length ≤ ss.length
  cut : ts.length < ss.length →
    ctx.options.exitOnFail = true ∧ (failed || ts.any (·.status.isFailed)) = true
  becomes : ∀ i s t, ss[i]? = some s → ts[i]? = some t →
    if ctx.options.failFast && (failed || (ts.take i).any (·.status.isFailed)) then
      t = s.marked .skipped
    else ∃ start,
      exec (evaluateScenarios action failed (ss.take i)) ctx = (.ok (ts.take i), start) ∧
        s.Becomes action start t

/-- What the statuses in a scenario that was evaluated tell. -/
structure Scenario.Finished (t : Scenario) : Prop where
  staged : t.isStepDef = false → Staged (t.allSteps.map (·.status))
  settled : ∀ step ∈ t.allSteps,
    step.status ≠ .pending ∧ (step.status = .loaded → t.isStepDef = true)

namespace Staged

variable {p : Status} {ps : List Status}

theorem settled (h : Staged ps) : ∀ p ∈ ps, p.Settled := by
  obtain ⟨before, hbefore, h⟩ := h
  have hbefore : ∀ p ∈ before, p.Settled := by
    intro p hp
    rcases hbefore p hp with hp | rfl
    · exact Status.settled_of_performed (.inl hp)
    · simp
  rcases h with rfl | ⟨d, cause, after, rfl, hafter⟩
  · exact hbefore
  · intro p hp
    rcases List.mem_append.mp hp with hp | hp
    · exact hbefore p hp
    · rcases List.mem_cons.mp hp with rfl | hp
      · simp
      · simp [hafter p hp]

theorem of_skipped (h : ∀ p ∈ ps, p = .skipped) : Staged ps :=
  ⟨ps, fun p hp => .inr (h p hp), .inl rfl⟩

theorem cons (hs : p.Settled) (hf : p.isFailed = false) (h : Staged ps) : Staged (p :: ps) := by
  obtain ⟨before, hbefore, h⟩ := h
  have hp : p.isPassed = true ∨ p = .skipped := by
    cases p <;> simp_all [Status.isPassed, Status.isFailed, Status.Settled]
  refine ⟨p :: before, List.forall_mem_cons.mpr ⟨hp, hbefore⟩, ?_⟩
  rcases h with rfl | ⟨d, cause, after, rfl, hafter⟩
  · exact .inl rfl
  · exact .inr ⟨d, cause, after, rfl, hafter⟩

theorem failed (hf : p.isFailed = true) (h : ∀ q ∈ ps, q = .skipped) : Staged (p :: ps) := by
  obtain ⟨d, cause, rfl⟩ : ∃ d cause, p = .failed d cause := by
    cases p <;> simp_all [Status.isFailed]
  exact ⟨[], by simp, .inr ⟨d, cause, ps, rfl, h⟩⟩

end Staged

namespace Step.Becomes

variable {s t : Step}

theorem erased (h : s.Becomes action ctx t) : t.erased = s.erased := by
  cases h <;> rfl

theorem settled (h : s.Becomes action ctx t) : t.status.Settled := by
  cases h with
  | unbound => simp
  | performed _ _ hs => exact Status.settled_of_performed hs
  | called _ _ _ _ hstaged => exact Status.settled_fold hstaged.settled

end Step.Becomes

namespace InTurn

variable {ss ts ss' ts' : List Step}

theorem staged (h : InTurn action (Step.Becomes action) ctx room ss ts) :
    Staged (ts.map (·.status)) := by
  induction h with
  | done => exact .of_skipped (by simp)
  | next _ h ht _ ih => exact ih.cons h.settled ht
  | failed _ h ht => exact .failed ht (by simp [Step.marked])

theorem erased (h : InTurn action (Step.Becomes action) ctx room ss ts) :
    ts.map (·.erased) = ss.map (·.erased) := by
  induction h with
  | done => rfl
  | next _ h _ _ ih => rw [List.map_cons, List.map_cons, h.erased, ih]
  | failed _ h _ => simp [h.erased, Function.comp_def]

end InTurn

theorem Scenario.RunsTo.of_inTurn {s t : Scenario} (herased : t.erased = s.erased)
    (h : InTurn action (Step.Becomes action) ctx room s.allSteps t.allSteps) :
    s.RunsTo action room ctx t :=
  ⟨herased, h, h.staged⟩

theorem perform_ok {s t : Step} {expression : String}
    (h : exec (s.perform action expression) ctx = (.ok t, c)) :
    ∃ status attachments, t = { s with status, attachments } ∧
      (status.isPassed = true ∨ status.isFailed = true) := by
  rw [Step.exec_perform] at h
  split at h
  · cases h
    exact ⟨_, s.attachments, rfl, .inl rfl⟩
  · dsimp only at h
    split at h
    · cases h
      exact ⟨_, s.attachments, rfl, .inl rfl⟩
    · obtain ⟨attachments, he⟩ := Step.exec_fail s _ _ _
      rw [he] at h
      cases h
      exact ⟨_, attachments, rfl, .inr rfl⟩

theorem withTable_ok {α : Type} {s : Step} {x : EvalM σ α} {a : α}
    (h : exec (s.withTable x) ctx = (.ok a, c)) : ∃ c, exec x (ctx.atStep s) = (.ok a, c) := by
  rw [Step.exec_withTable_atStep] at h
  exact ⟨_, Prod.ext (Prod.mk.inj h).1 rfl⟩

/-- What a step comes to, if what is called runs its steps as this many further calls allow. -/
theorem evaluateWith_becomes (room : Nat)
    {call : Step → String → Registry.Resolved → EvalM σ Step}
    (hcall : ∀ s expression found ctx t c, exec (call s expression found) ctx = (.ok t, c) →
      ∃ body, found.stepDef.RunsTo action room
          (ctx.entered { name := found.stepDef.name, expression } found.params) body ∧
        t = { s with status := Status.fold (body.allSteps.map (·.status)), body := some body })
    {s t : Step} (h : exec (s.evaluateWith action call) ctx = (.ok t, c)) :
    s.Becomes action ctx t := by
  rw [Step.exec_evaluateWith] at h
  split at h
  · next fault hf =>
    obtain ⟨attachments, he⟩ := Step.exec_fail s _ _ _
    rw [he] at h
    cases h
    exact .unbound hf attachments
  · next text hi =>
    obtain ⟨c', h⟩ := withTable_ok h
    rw [Step.exec_carryOut, Context.registry_atStep] at h
    split at h
    · cases h
    · next found hr =>
      obtain ⟨body, hbody, rfl⟩ := hcall _ _ _ _ _ _ h
      exact .called hi hr hbody.erased hbody.inTurn hbody.staged
    · next hr =>
      obtain ⟨status, attachments, rfl, hs⟩ := perform_ok h
      exact .performed hi hr hs attachments

theorem call_ok {run : Scenario → EvalM σ Scenario}
    (hrun : ∀ s ctx t c, exec (run s) ctx = (.ok t, c) → s.RunsTo action room ctx t) {s t : Step}
    {expression : String} {found : Registry.Resolved}
    (h : exec (s.call run expression found) ctx = (.ok t, c)) :
    ∃ body, found.stepDef.RunsTo action room
        (ctx.entered { name := found.stepDef.name, expression } found.params) body ∧
      t = { s with status := Status.fold (body.allSteps.map (·.status)), body := some body } := by
  rw [Step.exec_call] at h
  dsimp only at h
  split at h
  · cases h
  · rcases hb : exec (run found.stepDef) (ctx.entered _ found.params) with ⟨_ | body, c'⟩ <;>
      rw [hb] at h <;> cases h
    exact ⟨body, hrun _ _ _ _ hb, rfl⟩

section Lists

variable (he : ∀ (s : Step) ctx t c, exec (s.evaluate action room) ctx = (.ok t, c) →
  s.Becomes action ctx t)

include he

/-- Steps that are evaluated, and further steps behind them, which are evaluated only if none of the
first failed. -/
theorem inTurn_append {ss ts ss' ts' : List Step}
    (h : exec (evaluateSteps (Step.evaluate action room) ss) ctx = (.ok ts, c))
    (hrest : (∀ t ∈ ts, t.status.isFailed = false) →
      InTurn action (Step.Becomes action) c room ss' ts')
    (hskip : (∃ t ∈ ts, t.status.isFailed = true) → ts' = ss'.map (·.marked .skipped)) :
    InTurn action (Step.Becomes action) ctx room (ss ++ ss') (ts ++ ts') := by
  induction ss generalizing ctx ts with
  | nil =>
    cases h
    exact hrest (by simp)
  | cons s ss ih =>
    obtain ⟨t, c₁, ht, ⟨hf, rfl, rfl⟩ | ⟨hf, ts, hts, rfl⟩⟩ := evaluateSteps_cons_ok h
    · rw [hskip ⟨t, List.mem_cons_self, hf⟩, List.cons_append, List.cons_append, ← List.map_append]
      exact .failed ht (he s _ _ _ ht) hf
    · refine .next ht (he s _ _ _ ht) hf (ih hts (fun hts => hrest ?_) fun hts => hskip ?_)
      · exact List.forall_mem_cons.mpr ⟨hf, hts⟩
      · obtain ⟨u, hu, huf⟩ := hts
        exact ⟨u, List.mem_cons_of_mem t hu, huf⟩

theorem inTurn_of_evaluateSteps {ss ts : List Step}
    (h : exec (evaluateSteps (Step.evaluate action room) ss) ctx = (.ok ts, c)) :
    InTurn action (Step.Becomes action) ctx room ss ts := by
  have hturn := inTurn_append he h (fun _ => .done) fun _ => List.map_nil.symm
  simpa using hturn

theorem body_runs {s t : Scenario}
    (h : exec (s.evaluateBody (Step.evaluate action room)) ctx = (.ok t, c)) :
    s.RunsTo action room ctx t := by
  obtain ⟨hb, steps, hs, rfl⟩ | ⟨b, bs, c₁, hb, hbs, h⟩ := Scenario.evaluateBody_ok h
  · have hturn := inTurn_of_evaluateSteps he hs
    refine .of_inTurn ?_ ?_
    · simp [Scenario.erased, hturn.erased]
    · simpa [Scenario.allSteps, Scenario.backgroundSteps, hb] using hturn
  have herased := (inTurn_of_evaluateSteps he hbs).erased
  have hfailed : ({ b with steps := bs } : Background).status.isFailed = true ↔
      ∃ t ∈ bs, t.status.isFailed = true := by
    simp only [Background.status, Status.isFailed_fold, List.mem_map, exists_exists_and_eq_and]
  obtain ⟨hf, rfl, rfl⟩ | ⟨hf, steps, hs, rfl⟩ := h
  · refine .of_inTurn ?_ ?_
    · simp [Scenario.erased, Background.erased, hb, herased, Function.comp_def]
    · simp only [Scenario.allSteps, Scenario.backgroundSteps, hb]
      refine inTurn_append he hbs (fun hnone => ?_) fun _ => rfl
      obtain ⟨t, ht, htf⟩ := hfailed.mp hf
      simp [hnone t ht] at htf
  · have hturn := inTurn_of_evaluateSteps he hs
    refine .of_inTurn ?_ ?_
    · simp [Scenario.erased, Background.erased, hb, herased, hturn.erased]
    · simp only [Scenario.allSteps, Scenario.backgroundSteps, hb]
      refine inTurn_append he hbs (fun _ => hturn) fun hsome => ?_
      simp [hfailed.mpr hsome] at hf

end Lists

/-- By induction on how deep calls may still be nested. -/
theorem step_becomes (room : Nat) (s : Step) (ctx : Context σ) (t : Step) (c : Context σ)
    (h : exec (s.evaluate action room) ctx = (.ok t, c)) : s.Becomes action ctx t := by
  induction room generalizing s ctx t c with
  | zero => exact evaluateWith_becomes 0 (fun _ _ _ _ _ _ h => by cases h) h
  | succ room ih =>
    have hrun : ∀ (s : Scenario) ctx t c,
        exec (s.evaluateBody (Step.evaluate action room)) ctx = (.ok t, c) →
          s.RunsTo action room ctx t := fun _ _ _ _ => body_runs ih
    exact evaluateWith_becomes room (fun _ _ _ _ _ _ => call_ok hrun) h

namespace Scenario

variable {s t : Scenario}

theorem finished_skipped (s : Scenario) : (s.marked .skipped).Finished where
  staged _ := .of_skipped (marked_status s .skipped)
  settled step hstep := by
    simp [marked_status s .skipped _ (List.mem_map_of_mem hstep)]

theorem Becomes.erased (h : s.Becomes action ctx t) : t.erased = s.erased := by
  cases h with
  | registered | ignored => exact s.erased_marked _
  | executed _ _ h => exact h.erased

theorem Becomes.finished (h : s.Becomes action ctx t) : t.Finished := by
  cases h with
  | registered hs =>
    have hdef : (s.marked .loaded).isStepDef = true := hs
    refine ⟨fun hf => by simp [hdef] at hf, fun step hstep => ⟨?_, fun _ => hdef⟩⟩
    simp [marked_status s .loaded _ (List.mem_map_of_mem hstep)]
  | ignored => exact finished_skipped s
  | executed _ _ h =>
    refine ⟨fun _ => h.staged, fun step hstep => ?_⟩
    obtain ⟨hpending, hloaded⟩ := h.staged.settled _ (List.mem_map_of_mem hstep)
    exact ⟨hpending, fun hl => absurd hl hloaded⟩

end Scenario

theorem scenario_becomes {s t : Scenario} (h : exec (s.evaluate action) ctx = (.ok t, c)) :
    s.Becomes action ctx t := by
  rw [Scenario.exec_evaluate] at h
  split at h
  · next hs =>
    split at h <;> cases h
    exact .registered hs
  · next hs =>
    have hs : s.isStepDef = false := by simpa using hs
    split at h
    · next hi =>
      cases h
      exact .ignored hs hi
    · next hi => exact .executed hs (by simpa using hi) (body_runs (step_becomes ctx.room) h)

namespace ScenariosBecome

variable {failed : Bool} {ss ts : List Scenario}

theorem nothing (h : ss ≠ [] → ctx.options.exitOnFail = true ∧ failed = true) :
    ScenariosBecome action ctx failed ss [] where
  length_le := Nat.zero_le _
  cut hlt := by
    simpa using h (List.ne_nil_of_length_pos hlt)
  becomes i s t _ ht := by cases ht

theorem skipped (hfast : ctx.options.failFast = true) (hfailed : failed = true) :
    ScenariosBecome action ctx failed ss (ss.map (·.marked .skipped)) where
  length_le := by simp
  cut hlt := by simp at hlt
  becomes i s t hs ht := by
    simp only [List.getElem?_map, hs, Option.map_some, Option.some.injEq] at ht
    simp [hfast, hfailed, ht]

theorem cons {s t : Scenario} (hexit : (failed && ctx.options.exitOnFail) = false)
    (hfast : (failed && ctx.options.failFast) = false)
    (hs : exec (s.evaluate action) ctx = (.ok t, c)) (hoptions : c.options = ctx.options)
    (h : ScenariosBecome action c (failed || t.status.isFailed) ss ts) :
    ScenariosBecome action ctx failed (s :: ss) (t :: ts) where
  length_le := by simpa using h.length_le
  cut hlt := by
    simpa [hoptions, Bool.or_assoc] using h.cut (by simpa using hlt)
  becomes i s' t' hs' ht' := by
    cases i with
    | zero =>
      cases hs'
      cases ht'
      rw [if_neg (by simpa [Bool.and_comm] using hfast)]
      exact ⟨ctx, rfl, scenario_becomes hs⟩
    | succ i =>
      have hi := h.becomes i s' t' hs' ht'
      have hfailed : (failed || ((t :: ts).take (i + 1)).any (·.status.isFailed)) =
          (failed || t.status.isFailed || (ts.take i).any (·.status.isFailed)) := by
        simp [Bool.or_assoc]
      rw [hoptions] at hi
      rw [hfailed]
      split at hi
      · next hskip => rwa [if_pos hskip]
      · next hskip =>
        rw [if_neg hskip]
        obtain ⟨start, hx, ht⟩ := hi
        refine ⟨start, ?_, ht⟩
        rw [List.take_succ_cons, exec_evaluateScenarios_cons, if_neg (by simp [hexit]),
          if_neg (by simp [hfast]), hs]
        simp [hx, Except.map]

theorem erased (h : ScenariosBecome action ctx failed ss ts) :
    ts.map (·.erased) = (ss.map (·.erased)).take ts.length := by
  have hle := h.length_le
  refine List.ext_getElem (by simp [hle]) fun i hi _ => ?_
  simp only [List.length_map] at hi
  have hb := h.becomes i ss[i] ts[i] (List.getElem?_eq_getElem _) (List.getElem?_eq_getElem _)
  simp only [List.getElem_map, List.getElem_take]
  split at hb
  · rw [hb, Scenario.erased_marked]
  · obtain ⟨_, -, hb⟩ := hb
    exact hb.erased

theorem finished (h : ScenariosBecome action ctx failed ss ts) : ∀ t ∈ ts, t.Finished := by
  intro t ht
  obtain ⟨i, hi, rfl⟩ := List.getElem_of_mem ht
  have hs : i < ss.length := Nat.lt_of_lt_of_le hi h.length_le
  have hb := h.becomes i ss[i] ts[i] (List.getElem?_eq_getElem _) (List.getElem?_eq_getElem _)
  split at hb
  · rw [hb]
    exact ss[i].finished_skipped
  · obtain ⟨_, -, hb⟩ := hb
    exact hb.finished

end ScenariosBecome

theorem scenarios_become {failed : Bool} {ss ts : List Scenario}
    (h : exec (evaluateScenarios action failed ss) ctx = (.ok ts, c)) :
    ScenariosBecome action ctx failed ss ts := by
  induction ss generalizing failed ctx ts with
  | nil =>
    cases h
    exact .nothing fun h => absurd rfl h
  | cons s ss ih =>
    rw [exec_evaluateScenarios_cons] at h
    split at h
    · next hexit =>
      cases h
      obtain ⟨rfl, hexit⟩ := Bool.and_eq_true_iff.mp hexit
      exact .nothing fun _ => ⟨hexit, rfl⟩
    · next hexit =>
      split at h
      · next hfast =>
        cases h
        obtain ⟨rfl, hfast⟩ := Bool.and_eq_true_iff.mp hfast
        exact .skipped hfast rfl
      · next hfast =>
        have hoptions := (options_frame action).scenario s ctx
        rcases hd : exec (s.evaluate action) ctx with ⟨_ | t, c₁⟩ <;> rw [hd] at h hoptions
        · cases h
        · dsimp only at h
          rcases hrest : exec (evaluateScenarios action (failed || t.status.isFailed) ss) c₁
            with ⟨_ | ts, c₂⟩ <;> rw [hrest] at h <;> cases h
          exact .cons (by simpa using hexit) (by simpa using hfast) hd hoptions (ih hrest)

/-- A meta file is evaluated as a whole, since it may not fail. -/
theorem register_becomes {f done : Feature} (h : exec (f.register action) ctx = (.ok done, c)) :
    done.erasedScenarios = f.erasedScenarios ∧
      ScenariosBecome action ctx false f.scenarios done.scenarios := by
  obtain ⟨scenarios, c₁, hs, rfl, hcause, rfl⟩ := Feature.register_ok h
  have hbecome := scenarios_become hs
  have hnone : scenarios.any (·.status.isFailed) = false := by
    rw [Feature.cause?_status, List.findSome?_eq_none_iff] at hcause
    rw [List.any_eq_false]
    intro t ht
    rw [Status.isFailed_iff_cause?]
    simp [hcause t ht]
  have hlength : scenarios.length = f.scenarios.length := by
    refine Nat.le_antisymm hbecome.length_le (Nat.le_of_not_lt fun hlt => ?_)
    simpa [hnone] using (hbecome.cut hlt).2
  have herased := hbecome.erased
  rw [hlength, List.take_of_length_le (by simp)] at herased
  exact ⟨by simp [Feature.erasedScenarios, herased], hbecome⟩

/-- Each meta file is evaluated in the context that those before it leave. -/
theorem metas_become {fs done : List Feature}
    (h : exec (fs.mapM (Feature.register action)) ctx = (.ok done, c)) :
    done.map (·.erasedScenarios) = fs.map (·.erasedScenarios) ∧
      ∀ i m n, fs[i]? = some m → done[i]? = some n →
        ∃ start,
          exec ((fs.take i).mapM (Feature.register action)) ctx = (.ok (done.take i), start) ∧
            ScenariosBecome action start false m.scenarios n.scenarios := by
  induction fs generalizing ctx done with
  | nil =>
    cases h
    exact ⟨rfl, by simp⟩
  | cons f fs ih =>
    rw [List.mapM_cons] at h
    obtain ⟨d, c₁, hd, h⟩ := exec_bind_ok.mp h
    obtain ⟨ds, c₂, hds, h⟩ := exec_bind_ok.mp h
    cases h
    obtain ⟨herased, hbecome⟩ := register_becomes hd
    obtain ⟨herased', hbecome'⟩ := ih hds
    refine ⟨by simp [herased, herased'], fun i m n hm hn => ?_⟩
    cases i with
    | zero =>
      cases hm
      cases hn
      exact ⟨ctx, rfl, hbecome⟩
    | succ i =>
      obtain ⟨start, hx, h⟩ := hbecome' i m n hm hn
      refine ⟨start, ?_, h⟩
      rw [List.take_succ_cons, List.mapM_cons, exec_bind_ok]
      exact ⟨d, c₁, hd, exec_bind_ok.mpr ⟨_, start, hx, rfl⟩⟩

/-- Evaluation changes nothing but what it writes on steps, except that scenarios at the end may be
missing after a failure if the options say so. No step is left waiting and only step definitions are
left as loaded. In a scenario that runs the steps come in turn, passed or skipped up to a failure and
skipped after it, and so does the body that is recorded where a step stands for a step definition,
which gives that step its status. -/
theorem evaluation_keeps_shape (action : Action σ) (f : Feature) {ctx c : Context σ}
    {r : Feature.Result} (h : exec (f.evaluate action) ctx = (.ok r, c)) :
    r.feature.erased =
      { f.erased with scenarios := f.erased.scenarios.take r.feature.scenarios.length } ∧
    (r.feature.scenarios.length < f.scenarios.length → ctx.options.exitOnFail = true) ∧
    (∀ t ∈ r.feature.metas.flatMap (·.scenarios) ++ r.feature.scenarios, t.Finished) ∧
    (∀ i m n, f.metas[i]? = some m → r.feature.metas[i]? = some n → ∃ start,
      exec ((f.metas.take i).mapM (Feature.register action)) ctx =
          (.ok (r.feature.metas.take i), start) ∧
        ScenariosBecome action start false m.scenarios n.scenarios) ∧
    ∃ start,
      exec (f.metas.mapM (Feature.register action)) ctx = (.ok r.feature.metas, start) ∧
        ScenariosBecome action start false f.scenarios r.feature.scenarios := by
  obtain ⟨metas, c₁, scenarios, c₂, hm, hs, hf, -, -⟩ := Feature.evaluate_ok h
  have hoptions := (options_frame action).metas f.metas ctx
  rw [hm] at hoptions
  obtain ⟨herased, hmetas⟩ := metas_become hm
  have hscenarios := scenarios_become hs
  rw [hf]
  refine ⟨?_, fun hlt => hoptions ▸ (hscenarios.cut hlt).1, fun t ht => ?_, hmetas, c₁, hm,
    hscenarios⟩
  · simpa [Feature.erased, Feature.erasedScenarios, hscenarios.erased] using herased
  · rcases List.mem_append.mp ht with ht | ht
    · obtain ⟨n, hn, ht⟩ := List.mem_flatMap.mp ht
      obtain ⟨i, hi, rfl⟩ := List.getElem_of_mem hn
      have hlength : metas.length = f.metas.length := by simpa using congrArg List.length herased
      obtain ⟨_, -, hbecome⟩ := hmetas i f.metas[i] metas[i] (List.getElem?_eq_getElem _)
        (List.getElem?_eq_getElem _)
      exact hbecome.finished t ht
    · exact hscenarios.finished t ht

/-- A call in the background, a failure, and a scenario behind them. -/
def meeting : Feature where
  header := { name := "Meeting" }
  scenarios := [
    { name := "I greet <name>", tags := [.stepDef], steps := [
      { keyword := .given, expression := "greeting is \"hello $<name>\"" }] },
    { name := "Ada"
      background := some { steps := [{ keyword := .given, expression := "I greet Ada" }] }
      steps := [{ keyword := .then, expression := "greeting should be \"hello Bob\"" },
        { keyword := .and, expression := "I leave" }] },
    { name := "Bob", steps := [{ keyword := .given, expression := "I greet Bob" }] }]

theorem evaluation_keeps_shape_meeting :
    let ctx : Context Unit := { options := { exitOnFail := true }, state := () }
    ∃ r c, exec (meeting.evaluate Action.builtin) ctx = (.ok r, c) ∧
      r.feature.scenarios.map (·.allSteps.map (·.status.keyword)) =
        [["Loaded"], ["Passed", "Failed", "Skipped"]] ∧
      r.feature.erased = { meeting.erased with scenarios := meeting.erased.scenarios.take 2 } ∧
      ∀ t ∈ r.feature.scenarios, t.Finished := by
  intro ctx
  have hrun : (exec (meeting.evaluate Action.builtin) ctx).1.toOption.map (fun r =>
      r.feature.scenarios.map (·.allSteps.map (·.status.keyword))) =
        some [["Loaded"], ["Passed", "Failed", "Skipped"]] := by
    decide +kernel
  obtain ⟨r, hr, hkeywords⟩ := Outcome.toOption_map_eq_some.mp hrun
  have hr : exec (meeting.evaluate Action.builtin) ctx = (.ok r, _) := Prod.ext hr rfl
  have hlength : r.feature.scenarios.length = 2 := by simpa using congrArg List.length hkeywords
  obtain ⟨herased, -, hfinished, -, -⟩ := evaluation_keeps_shape Action.builtin meeting hr
  rw [hlength] at herased
  exact ⟨r, _, hr, hkeywords, herased, fun t ht => hfinished t (List.mem_append_right _ ht)⟩

end Gherkin
