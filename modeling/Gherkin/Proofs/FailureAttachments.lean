import Gherkin.Proofs.AttachmentHistory
import Gherkin.Proofs.Failures
import Gherkin.Proofs.RegistryHistory

/-! Failures and attachments of a feature. Every step that failed by itself carries the two files of
its failure, no other step carries any, and what is listed are the files that the steps carry. -/
namespace Gherkin

open EvalM

variable {σ α : Type} {action : Action σ} {ctx c : Context σ}

/-- The step has not been evaluated: nothing is attached to it and no body is recorded. -/
structure Step.Bare (s : Step) : Prop where
  attachments : s.attachments = []
  body : s.body = none

namespace Scenario

def Bare (s : Scenario) : Prop := ∀ t ∈ s.allSteps, t.Bare

end Scenario

/-- No step of the feature, nor of a meta file that comes with it, has been evaluated. -/
structure Feature.Bare (f : Feature) : Prop where
  scenarios : ∀ s ∈ f.scenarios, s.Bare
  metas : ∀ m ∈ f.metas, ∀ s ∈ m.scenarios, s.Bare

namespace Registry

variable {r registry : Registry} {expression : String} {found : Resolved} {s t : Scenario}
  {ss : List Scenario}

def Bare (r : Registry) : Prop := ∀ s ∈ r.stepDefs, s.Bare

theorem mem_of_matching {all : List Resolved} (h : matching expression ss = .ok all)
    (hf : found ∈ all) : found.stepDef ∈ ss := by
  induction ss generalizing all with
  | nil =>
    cases h
    cases hf
  | cons s ss ih =>
    obtain ⟨params, -, h⟩ := Outcome.bind_eq_ok.mp h
    obtain ⟨rest, hrest, h⟩ := Outcome.bind_eq_ok.mp h
    cases params with
    | none =>
      cases h
      exact List.mem_cons_of_mem _ (ih hrest hf)
    | some params =>
      cases h
      rcases List.mem_cons.mp hf with rfl | hf
      · exact List.mem_cons_self
      · exact List.mem_cons_of_mem _ (ih hrest hf)

/-- What is found is registered. -/
theorem mem_of_resolve (h : r.resolve expression = .ok (some found)) :
    found.stepDef ∈ r.stepDefs := by
  unfold resolve at h
  split at h
  · next hg =>
    cases h
    exact (mem_of_get? hg).1
  · split at h
    · cases h
    · cases h
    · next hm =>
      cases h
      exact mem_of_matching hm (List.mem_singleton_self _)
    · cases h

theorem mem_insert (h : t ∈ insert s ss) : t = s ∨ t ∈ ss := by
  induction ss with
  | nil => exact Or.inl (List.mem_singleton.mp h)
  | cons u ss ih =>
    simp only [insert] at h
    split at h
    · rcases List.mem_cons.mp h with rfl | h
      · exact Or.inl rfl
      · exact Or.inr (List.mem_cons_of_mem _ h)
    · rcases List.mem_cons.mp h with rfl | h
      · exact Or.inr List.mem_cons_self
      · exact (ih h).imp id (List.mem_cons_of_mem _)

theorem allSteps_stored (r : Registry) (s : Scenario) : (r.stored s).allSteps = s.allSteps := by
  unfold stored asStepDef
  split <;> rfl

theorem Bare.add (h : r.Bare) (hs : s.Bare) (ha : r.add s = .ok registry) : registry.Bare := by
  by_cases hname : Admissible s.name
  · rw [add_of_admissible hname] at ha
    cases ha
    intro t ht
    rcases mem_insert ht with rfl | ht
    · unfold Scenario.Bare
      rw [allSteps_stored]
      exact hs
    · exact h t ht
  · obtain ⟨fault, hf⟩ := add_of_not_admissible (r := r) hname
    rw [hf] at ha
    cases ha

end Registry

/-- The steps evaluated between two contexts tell the failures that were noted, and carry what was
written. -/
structure Evidence (ctx c : Context σ) (ss : List Step) : Prop where
  records : ctx.store.Records ss c.store
  noted : ∃ events, c.journal = ctx.journal ++ events ∧
    (Step.failures ss).map (·.status.cause?) = (events.filterMap Event.failure?).map some
  registry : c.registry.Bare

/-- Whenever `x` succeeds, the steps evaluated for its outcome are evidence, and one of them failed
by itself exactly if the status of the outcome is that of a failure. -/
def EvalM.Testifies (steps : α → List Step) (status : α → Status) (x : EvalM σ α) : Prop :=
  ∀ ctx a c, ctx.registry.Bare → exec x ctx = (.ok a, c) →
    Evidence ctx c (steps a) ∧
      (Step.failures (steps a)).length = if (status a).isFailed then 1 else 0

namespace Evidence

theorem of_quiet {ss : List Step} (hr : c.registry.Bare) (hq : ∀ s ∈ ss, s.Quiet)
    (hs : c.store = ctx.store) {events : List Event} (hj : c.journal = ctx.journal ++ events)
    (he : events.filterMap Event.failure? = []) : Evidence ctx c ss where
  records := by
    rw [hs]
    exact AttachmentStore.records_of_quiet hq
  noted := ⟨events, hj, by rw [Step.failures_of_quiet hq, he]; rfl⟩
  registry := hr

theorem append {a b : Context σ} {ss ts : List Step} (h₁ : Evidence a b ss)
    (h₂ : Evidence b c ts) : Evidence a c (ss ++ ts) where
  records := h₁.records.append h₂.records
  noted := by
    obtain ⟨es, hes, hss⟩ := h₁.noted
    obtain ⟨fs, hfs, hts⟩ := h₂.noted
    refine ⟨es ++ fs, by rw [hfs, hes, List.append_assoc], ?_⟩
    rw [Step.failures_append, List.map_append, hss, hts, List.filterMap_append, List.map_append]
  registry := h₂.registry

end Evidence

theorem tree_of_body_eq_none {s : Step} (h : s.body = none) : s.tree = [s] := by
  rw [Step.tree_eq, h]
  rfl

theorem fail_files {s t : Step} {elapsed : Duration} {cause : String}
    (h : exec (s.fail elapsed cause) ctx = (.ok t, c)) :
    t.status = .failed elapsed cause ∧ t.body = s.body ∧ c.journal = ctx.journal ∧
      c.registry = ctx.registry ∧
      ∃ details picture, t.attachments = s.attachments ++ (ctx.store.failure details picture).1 ∧
        c.store = (ctx.store.failure details picture).2 := by
  cases h
  exact ⟨rfl, rfl, rfl, rfl, cause.toUTF8, ctx.scopes.snapshot.pretty.toUTF8, rfl, rfl⟩

/-- The evidence of a failure that was noted is the step that failed. -/
theorem fail_testifies {s t : Step} {e : Event} {elapsed : Duration} {cause : String}
    {noted : Context σ} (hs : s.Bare) (hr : ctx.registry.Bare) (he : e.failure? = some cause)
    (hj : noted.journal = ctx.journal ++ [e]) (hstore : noted.store = ctx.store)
    (hregistry : noted.registry = ctx.registry)
    (h : exec (s.fail elapsed cause) noted = (.ok t, c)) :
    Evidence ctx c t.tree ∧ (Step.failures t.tree).length = if t.status.isFailed then 1 else 0 := by
  obtain ⟨hstatus, hbody, hjc, hrc, details, picture, ha, hc⟩ := fail_files h
  rw [hs.attachments, List.nil_append, hstore] at ha
  rw [hstore] at hc
  have hdirect : t.failedDirectly = true := by
    rw [Step.failedDirectly, hstatus, hbody, hs.body]
    rfl
  have hfailures : Step.failures [t] = [t] := List.filter_cons_of_pos hdirect
  rw [tree_of_body_eq_none (hbody.trans hs.body), hfailures, hstatus]
  refine ⟨⟨.failed details picture hdirect ha (hc ▸ .nil _), ⟨[e], hjc.trans hj, ?_⟩, ?_⟩, rfl⟩
  · rw [hfailures, List.map_singleton, hstatus, List.filterMap_cons_some he]
    rfl
  · rw [hrc, hregistry]
    exact hr

/-- A step that is marked is no failure. -/
theorem quiet_marked {s : Step} {status : Status} (hs : s.Bare) (hf : status.isFailed = false) :
    (s.marked status).tree = [s.marked status] ∧ (s.marked status).Quiet := by
  refine ⟨tree_of_body_eq_none hs.body, ?_, hs.attachments⟩
  rw [Step.failedDirectly, Step.marked, hf, Bool.false_and]

theorem quiet_of_mem_marked {ss : List Step} {status : Status} (hss : ∀ s ∈ ss, s.Bare)
    (hf : status.isFailed = false) :
    ∀ s ∈ (ss.map (·.marked status)).flatMap Step.tree, s.Quiet := by
  intro t ht
  obtain ⟨u, hu, ht⟩ := List.mem_flatMap.mp ht
  obtain ⟨s, hs, rfl⟩ := List.mem_map.mp hu
  obtain ⟨htree, hquiet⟩ := quiet_marked (hss s hs) hf
  rw [htree, List.mem_singleton] at ht
  rw [ht]
  exact hquiet

theorem marked_testifies {s : Step} {status : Status} (hs : s.Bare) (hf : status.isFailed = false)
    (hr : c.registry.Bare) (hstore : c.store = ctx.store) {events : List Event}
    (hj : c.journal = ctx.journal ++ events) (he : events.filterMap Event.failure? = []) :
    Evidence ctx c (s.marked status).tree ∧
      (Step.failures (s.marked status).tree).length = if status.isFailed then 1 else 0 := by
  obtain ⟨htree, hquiet⟩ := quiet_marked hs hf
  have hq : ∀ t ∈ [s.marked status], t.Quiet := by simpa using hquiet
  rw [htree, Step.failures_of_quiet hq, hf]
  exact ⟨.of_quiet hr hq hstore hj he, rfl⟩

theorem perform_testifies {s : Step} (hs : s.Bare) (expression : String) :
    Testifies Step.tree (·.status) (s.perform action expression) := by
  intro ctx t c hr h
  rw [Step.exec_perform] at h
  split at h
  · cases h
    exact marked_testifies hs rfl hr rfl (List.append_nil _).symm rfl
  · dsimp only at h
    split at h
    · next hresult =>
      cases h
      refine marked_testifies hs rfl hr rfl rfl ?_
      rw [hresult]
      rfl
    · next fault hresult =>
      have hj : (ctx.acted action expression).journal = ctx.journal ++ [.performed expression
          (ctx.scopes.objects.get? tableObject) (.error fault)
          (action expression ctx.settings ctx.scopes ctx.state).elapsed] := by
        rw [← hresult]
        rfl
      exact fail_testifies hs hr rfl hj rfl rfl h

theorem call_testifies {run : Scenario → EvalM σ Scenario} {s : Step} (hs : s.Bare)
    {found : Registry.Resolved}
    (hrun : Testifies Scenario.tree (·.status) (run found.stepDef)) (expression : String) :
    Testifies Step.tree (·.status) (s.call run expression found) := by
  intro ctx t c hr h
  rw [Step.exec_call] at h
  dsimp only at h
  split at h
  · cases h
  · rcases hb : exec (run found.stepDef) (ctx.entered _ found.params) with ⟨_ | body, c'⟩ <;>
      rw [hb] at h <;> cases h
    obtain ⟨⟨hrecords, ⟨events, hj, hnoted⟩, hregistry⟩, hcount⟩ :=
      hrun (ctx.entered _ found.params) body c' hr hb
    have hquiet : Step.Quiet { s with status := body.status, body := some body } :=
      ⟨by simp [Step.failedDirectly], hs.attachments⟩
    have hskip : Step.failures ({ s with status := body.status, body := some body } ::
        body.tree) = Step.failures body.tree :=
      List.filter_cons_of_neg (by simp [hquiet.1])
    rw [Step.tree_eq, Option.elim_some, hskip]
    -- Entering the body is noted, but it is no failure.
    let frame : Frame := { name := found.stepDef.name, expression }
    refine ⟨⟨.quiet hquiet hrecords, ⟨.called (frame :: ctx.calls) :: events, ?_, ?_⟩, hregistry⟩,
      hcount⟩
    · rw [Context.left, hj, Context.entered, Context.note, List.append_assoc]
      rfl
    · rw [hskip]
      exact hnoted

theorem evaluateWith_testifies {call : Step → String → Registry.Resolved → EvalM σ Step} {s : Step}
    (hs : s.Bare)
    (hcall : ∀ expression found, found.stepDef.Bare →
      Testifies Step.tree (·.status) (call s expression found)) :
    Testifies Step.tree (·.status) (s.evaluateWith action call) := by
  intro ctx t c hr h
  have carried : ∀ expression,
      Testifies Step.tree (·.status) (s.carryOut action call expression) := by
    intro expression ctx t c hr h
    rw [Step.exec_carryOut] at h
    split at h
    · cases h
    · next hfound =>
      exact hcall expression _ (hr _ (Registry.mem_of_resolve hfound)) _ _ _ hr h
    · exact perform_testifies hs expression _ _ _ hr h
  rw [Step.exec_evaluateWith] at h
  split at h
  · next fault _ =>
    have hj : (ctx.note (.unbound fault)).journal = ctx.journal ++ [.unbound fault] := rfl
    exact fail_testifies hs hr rfl hj rfl rfl h
  · rw [Step.exec_withTable] at h
    split at h
    · exact carried _ _ _ _ hr h
    · rcases hx : exec (s.carryOut action call _) (ctx.tabled s.table) with ⟨o, c'⟩
      rw [hx] at h
      cases h
      obtain ⟨⟨hrecords, hnoted, hregistry⟩, hcount⟩ :=
        carried _ (ctx.tabled s.table) t c' hr hx
      exact ⟨⟨hrecords, hnoted, hregistry⟩, hcount⟩

section Lists

variable {evaluate : Step → EvalM σ Step}
  (he : ∀ s : Step, s.Bare → Testifies Step.tree (·.status) (evaluate s))

include he

/-- Steps are evaluated up to the first that fails, and those after it are marked. -/
theorem steps_testify {ss ts : List Step} (hss : ∀ s ∈ ss, s.Bare) (hr : ctx.registry.Bare)
    (h : exec (evaluateSteps evaluate ss) ctx = (.ok ts, c)) :
    Evidence ctx c (ts.flatMap Step.tree) ∧
      (Step.failures (ts.flatMap Step.tree)).length =
        if ts.any (·.status.isFailed) then 1 else 0 := by
  induction ss generalizing ctx ts with
  | nil =>
    cases h
    exact ⟨.of_quiet hr (by simp) rfl (List.append_nil _).symm rfl, rfl⟩
  | cons s ss ih =>
    obtain ⟨hs, hss⟩ := List.forall_mem_cons.mp hss
    obtain ⟨t, c₁, ht, ⟨hf, rfl, rfl⟩ | ⟨hf, ts, hts, rfl⟩⟩ := evaluateSteps_cons_ok h
    · obtain ⟨hfirst, hcount⟩ := he s hs ctx t c hr ht
      have hskipped := quiet_of_mem_marked hss (rfl : Status.skipped.isFailed = false)
      have hrest : Evidence c c ((ss.map (·.marked .skipped)).flatMap Step.tree) :=
        .of_quiet hfirst.registry hskipped rfl (List.append_nil _).symm rfl
      rw [List.flatMap_cons, Step.failures_append, Step.failures_of_quiet hskipped,
        List.append_nil, hcount, List.any_cons, hf]
      exact ⟨hfirst.append hrest, rfl⟩
    · obtain ⟨hfirst, hcount⟩ := he s hs ctx t c₁ hr ht
      obtain ⟨hrest, hmore⟩ := ih hss hfirst.registry hts
      rw [List.flatMap_cons, Step.failures_append, List.length_append, hcount, hmore,
        List.any_cons, hf]
      exact ⟨hfirst.append hrest, by simp⟩

theorem body_testifies {s : Scenario} (hs : s.Bare) :
    Testifies Scenario.tree (·.status) (s.evaluateBody evaluate) := by
  intro ctx done c hr h
  obtain ⟨ts, hx, rfl⟩ := Scenario.evaluateBody_withSteps h
  rw [Scenario.tree_eq, Scenario.isFailed_status, Scenario.allSteps_withSteps]
  exact steps_testify he hs hr hx

end Lists

/-- By induction on how deep calls may still be nested. -/
theorem step_testifies (room : Nat) {s : Step} (hs : s.Bare) :
    Testifies Step.tree (·.status) (s.evaluate action room) := by
  induction room generalizing s with
  | zero => exact evaluateWith_testifies hs fun _ _ _ ctx t c _ h => by cases h
  | succ room ih =>
    exact evaluateWith_testifies hs fun expression found hfound =>
      call_testifies hs (body_testifies (fun _ => ih) hfound) expression

theorem quiet_of_mem_tree_marked {s : Scenario} {status : Status} (hs : s.Bare)
    (hf : status.isFailed = false) : ∀ t ∈ (s.marked status).tree, t.Quiet := by
  rw [Scenario.tree_eq, Scenario.allSteps_marked]
  exact quiet_of_mem_marked hs hf

/-- A scenario that is marked without being run is evidence of nothing. -/
theorem scenario_marked_testifies {s : Scenario} {status : Status} (hs : s.Bare)
    (hc : status.cause? = none) (hp : status ≠ .pending) (hr : c.registry.Bare)
    (hstore : c.store = ctx.store) (hj : c.journal = ctx.journal) :
    Evidence ctx c (s.marked status).tree ∧ (Step.failures (s.marked status).tree).length =
      if (s.marked status).status.isFailed then 1 else 0 := by
  have hf : status.isFailed = false := by
    rw [Bool.eq_false_iff, ne_eq, Status.isFailed_iff_cause?, hc]
    simp
  have hquiet := quiet_of_mem_tree_marked hs hf
  rw [Step.failures_of_quiet hquiet, marked_not_failed s hc hp]
  exact ⟨.of_quiet hr hquiet hstore (hj.trans (List.append_nil _).symm) rfl, rfl⟩

theorem scenario_testifies {s : Scenario} (hs : s.Bare) :
    Testifies Scenario.tree (·.status) (s.evaluate action) := by
  intro ctx done c hr h
  rw [Scenario.exec_evaluate] at h
  split at h
  · split at h
    · cases h
    · next hadd =>
      cases h
      exact scenario_marked_testifies hs rfl (by simp) (hr.add hs hadd) rfl rfl
  · split at h
    · cases h
      exact scenario_marked_testifies hs rfl (by simp) hr rfl rfl
    · exact body_testifies (fun _ => step_testifies _) hs _ _ _ hr h

/-- As many steps failed by themselves as scenarios failed. -/
theorem scenarios_testify {failed : Bool} {ss done : List Scenario} (hss : ∀ s ∈ ss, s.Bare)
    (hr : ctx.registry.Bare)
    (h : exec (evaluateScenarios action failed ss) ctx = (.ok done, c)) :
    Evidence ctx c (done.flatMap Scenario.tree) ∧ done.length ≤ ss.length ∧
      (Step.failures (done.flatMap Scenario.tree)).length =
        (done.filter (·.status.isFailed)).length := by
  induction ss generalizing failed ctx done with
  | nil =>
    cases h
    exact ⟨.of_quiet hr (by simp) rfl (List.append_nil _).symm rfl, Nat.le_refl _, rfl⟩
  | cons s ss ih =>
    rw [exec_evaluateScenarios_cons] at h
    split at h
    · cases h
      exact ⟨.of_quiet hr (by simp) rfl (List.append_nil _).symm rfl, Nat.zero_le _, rfl⟩
    · split at h
      · cases h
        have hquiet : ∀ t ∈ ((s :: ss).map (·.marked .skipped)).flatMap Scenario.tree, t.Quiet := by
          intro t ht
          obtain ⟨d, hd, ht⟩ := List.mem_flatMap.mp ht
          obtain ⟨u, hu, rfl⟩ := List.mem_map.mp hd
          exact quiet_of_mem_tree_marked (hss u hu) rfl t ht
        have hnone : ((s :: ss).map (·.marked .skipped)).filter (·.status.isFailed) = [] := by
          rw [List.filter_eq_nil_iff]
          intro d hd
          obtain ⟨u, -, rfl⟩ := List.mem_map.mp hd
          simp [marked_not_failed u (rfl : Status.skipped.cause? = none) (by simp)]
        rw [Step.failures_of_quiet hquiet, hnone, List.length_map]
        exact ⟨.of_quiet hr hquiet rfl (List.append_nil _).symm rfl, Nat.le_refl _, rfl⟩
      · obtain ⟨hs, hss⟩ := List.forall_mem_cons.mp hss
        rcases hd : exec (s.evaluate action) ctx with ⟨_ | d, c₁⟩ <;> rw [hd] at h
        · cases h
        · dsimp only at h
          rcases hrest : exec (evaluateScenarios action (failed || d.status.isFailed) ss) c₁
            with ⟨_ | rest, c₂⟩ <;> rw [hrest] at h <;> cases h
          obtain ⟨hfirst, hcount⟩ := scenario_testifies hs ctx d c₁ hr hd
          obtain ⟨hmore, hlength, hcounts⟩ := ih hss hfirst.registry hrest
          refine ⟨hfirst.append hmore, Nat.succ_le_succ hlength, ?_⟩
          rw [List.flatMap_cons, Step.failures_append, List.length_append, hcount, hcounts,
            List.filter_cons]
          split <;> simp [Nat.add_comm]

/-- A meta file that could be loaded had no failures. -/
theorem register_testifies {f done : Feature} (hf : ∀ s ∈ f.scenarios, s.Bare)
    (hr : ctx.registry.Bare) (h : exec (f.register action) ctx = (.ok done, c)) :
    Evidence ctx c [] ∧ ∀ t ∈ done.scenarios.flatMap Scenario.tree, t.attachments = [] := by
  obtain ⟨scenarios, c₁, hs, rfl, hcause, rfl⟩ := Feature.register_ok h
  obtain ⟨hevidence, -, hcount⟩ := scenarios_testify hf hr hs
  rw [Feature.cause?_status, List.findSome?_eq_none_iff] at hcause
  have hnone : scenarios.filter (·.status.isFailed) = [] := by
    rw [List.filter_eq_nil_iff]
    intro s hs
    rw [Status.isFailed_iff_cause?, hcause s hs]
    simp
  rw [hnone, List.length_nil, List.length_eq_zero_iff] at hcount
  obtain ⟨hstore, hattachments⟩ := hevidence.records.eq_of_no_failures hcount
  obtain ⟨events, hj, hnoted⟩ := hevidence.noted
  rw [hcount, List.map_nil, eq_comm, List.map_eq_nil_iff] at hnoted
  exact ⟨.of_quiet hevidence.registry (by simp) hstore hj hnoted, hattachments⟩

theorem metas_testify {fs done : List Feature} (hfs : ∀ f ∈ fs, ∀ s ∈ f.scenarios, s.Bare)
    (hr : ctx.registry.Bare)
    (h : exec (fs.mapM (Feature.register action)) ctx = (.ok done, c)) :
    Evidence ctx c [] ∧
      ∀ m ∈ done, ∀ t ∈ m.scenarios.flatMap Scenario.tree, t.attachments = [] := by
  induction fs generalizing ctx done with
  | nil =>
    cases h
    exact ⟨.of_quiet hr (by simp) rfl (List.append_nil _).symm rfl, by simp⟩
  | cons f fs ih =>
    obtain ⟨hf, hfs⟩ := List.forall_mem_cons.mp hfs
    rw [List.mapM_cons] at h
    obtain ⟨d, c₁, hd, h⟩ := exec_bind_ok.mp h
    obtain ⟨ds, c₂, hds, h⟩ := exec_bind_ok.mp h
    cases h
    obtain ⟨hfirst, hattachments⟩ := register_testifies hf hr hd
    obtain ⟨hrest, hmore⟩ := ih hfs hfirst.registry hds
    exact ⟨hfirst.append hrest, List.forall_mem_cons.mpr ⟨hattachments, hmore⟩⟩

/-- In a new context that can write its attachments and has numbers for them, the steps that fail
directly are those whose failures were noted, one after another, and each carries the two files
numbered by its rank. No other step carries any, and the files listed are those that steps carry. -/
theorem attachments_match_failures (action : Action σ) {f : Feature} (hf : f.Bare) {dir : Path}
    {files : FileSystem} {settings : Settings} {options : Options} {state : σ}
    (hroom : AttachmentStore.HasRoom { dir := some dir, files } (2 * f.scenarios.length))
    (hstore : AttachmentStore.Takes f.scenarios.length { dir := some dir, files })
    {r : Feature.Result} {c : Context σ}
    (h : exec (f.evaluate action)
      { settings, options, store := { dir := some dir, files }, state } = (.ok r, c)) :
    let steps := r.feature.scenarios.flatMap Scenario.tree
    let failed := steps.filter (·.failedDirectly)
    failed.map (·.status.cause?) = (c.journal.filterMap Event.failure?).map some ∧
    (∀ k (s : Step), failed[k]? = some s → s.attachments =
      [{ name := "Error details"
         file := dir.join (AttachmentStore.fileName (2 * k + 1) "Error details" "txt") },
       { name := "Environment"
         file := dir.join (AttachmentStore.fileName (2 * k + 2) "Environment" "json") }]) ∧
    (∀ s ∈ steps, s.failedDirectly = false → s.attachments = []) ∧
    (∀ m ∈ r.feature.metas, ∀ s ∈ m.scenarios.flatMap Scenario.tree, s.attachments = []) ∧
    r.attachments.Perm (steps.flatMap (·.attachments)) ∧
    r.attachments.Pairwise fun a b =>
      AttachmentStore.nameLe a.file.fileName? b.file.fileName? = true := by
  intro steps failed
  obtain ⟨metas, c₁, scenarios, c₂, hm, hs, rfl, rfl⟩ := Feature.evaluate_ends h
  obtain ⟨hmetas, hquiet⟩ := metas_testify hf.metas (by simp [Registry.Bare]) hm
  obtain ⟨hscenarios, hlength, hcount⟩ := scenarios_testify hf.scenarios hmetas.registry hs
  obtain ⟨hrecords, ⟨events, hj, hnoted⟩, -⟩ := hmetas.append hscenarios
  have hfew : (Step.failures steps).length ≤ f.scenarios.length := by
    have hle := List.length_filter_le (·.status.isFailed) scenarios
    exact hcount ▸ Nat.le_trans hle hlength
  have hunused : (AttachmentStore.used { dir := some dir, files }).toNat = 2 * 0 := rfl
  obtain ⟨hranks, hnone, hentries⟩ := hrecords.numbered rfl hroom hunused hstore hfew
  obtain ⟨hperm, hsorted⟩ := c₂.store.list_sorted
  refine ⟨?_, fun k s hk => ?_, hnone, hquiet, ?_, hsorted⟩
  · have hjournal : (f.concluded c₂).journal = events := by
      unfold Feature.concluded
      split <;> exact hj
    rw [hjournal]
    exact hnoted
  · rw [hranks k s hk, AttachmentStore.filed, Nat.zero_add]
  · rw [hentries] at hperm
    exact hperm

/-- A step definition that fails when it is called, and a reference to nothing. -/
def slipping : Feature where
  header := { name := "Slip" }
  scenarios := [
    { tags := [.stepDef], name := "walk", steps := [{ keyword := .given, expression := "stumble" }] },
    { name := "Walk", steps := [{ keyword := .given, expression := "walk" }] },
    { name := "Run", steps := [{ keyword := .given, expression := "run ${pace}" }] }]

/-- One empty directory. -/
def outFiles : FileSystem where
  root := .dir [("out", .dir [])]

theorem holdsFiles_out : outFiles.HoldsFiles "/out" ["out"] where
  spelled := by decide +kernel
  below := List.cons_ne_nil _ _
  fits := by decide +kernel
  closed := by decide +kernel
  usable := by decide +kernel
  root := rfl
  files := ⟨[], rfl, by simp⟩

theorem attachments_match_failures_slipping :
    ∃ r c, exec (slipping.evaluate refusing)
        { store := { dir := some "/out", files := outFiles }, state := [] } = (.ok r, c) ∧
      (r.feature.scenarios.flatMap Scenario.tree).map (fun s =>
          (s.expression, s.status.isFailed, s.attachments.map (·.file))) =
        [("stumble", false, []), ("walk", true, []),
          ("stumble", true, ["/out/0001-error-details.txt", "/out/0002-environment.json"]),
          ("run ${pace}", true, ["/out/0003-error-details.txt", "/out/0004-environment.json"])] ∧
      r.attachments.Perm
        ((r.feature.scenarios.flatMap Scenario.tree).flatMap (·.attachments)) := by
  have hbare : slipping.Bare := by
    refine ⟨?_, by simp [slipping]⟩
    intro s hs t ht
    simp only [slipping, List.mem_cons, List.not_mem_nil, or_false] at hs
    rcases hs with rfl | rfl | rfl <;> cases List.mem_singleton.mp ht <;> exact ⟨rfl, rfl⟩
  have hroom : AttachmentStore.HasRoom { dir := some "/out", files := outFiles }
      (2 * slipping.scenarios.length) := by
    decide +kernel
  have htakes : AttachmentStore.Takes slipping.scenarios.length
      { dir := some "/out", files := outFiles } :=
    AttachmentStore.takes_of_holdsFiles rfl holdsFiles_out hroom (by decide +kernel)
  have hrun : (exec (slipping.evaluate refusing)
      { store := { dir := some "/out", files := outFiles }, state := [] }).1.toOption.map (fun r =>
        (r.feature.scenarios.flatMap Scenario.tree).map fun s =>
          (s.expression, s.status.isFailed, s.attachments.map (·.file))) = some
      [("stumble", false, []), ("walk", true, []),
        ("stumble", true, ["/out/0001-error-details.txt", "/out/0002-environment.json"]),
        ("run ${pace}", true, ["/out/0003-error-details.txt", "/out/0004-environment.json"])] := by
    decide +kernel
  obtain ⟨r, hr, htree⟩ := Outcome.toOption_map_eq_some.mp hrun
  exact ⟨r, _, Prod.ext hr rfl, htree,
    (attachments_match_failures refusing hbare hroom htakes (Prod.ext hr rfl)).2.2.2.2.1⟩

end Gherkin
