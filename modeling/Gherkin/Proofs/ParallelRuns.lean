import Gherkin.Run
import Gherkin.Proofs.Invariance
import Gherkin.Proofs.Outcomes

/-! Runs in order and runs in parallel. A parallel run does every job, and a run in order may stop
at the first failure; where no job depends on those before it, one can be told from the other, and
both come to the same verdict. -/
namespace Gherkin

variable {α β : Type}

mutual

/-- The step without the time that was measured, also in the body of a call. -/
def Step.untimed : Step → Step
  | ⟨keyword, expression, pos, table, status, attachments, body⟩ =>
    ⟨keyword, expression, pos, table, status.untimed, attachments, Scenario.bodyUntimed body⟩

def Scenario.bodyUntimed : Option Scenario → Option Scenario
  | none => none
  | some s => some s.untimed

def Step.listUntimed : List Step → List Step
  | [] => []
  | s :: ss => s.untimed :: Step.listUntimed ss

def Background.untimed : Background → Background
  | ⟨name, description, steps⟩ => ⟨name, description, Step.listUntimed steps⟩

def Background.optionUntimed : Option Background → Option Background
  | none => none
  | some b => some b.untimed

/-- The examples stay, since evaluation does not touch them. -/
def Scenario.untimed : Scenario → Scenario
  | ⟨tags, name, description, background, steps, isOutline, examples, metaFile, pos⟩ =>
    ⟨tags, name, description, Background.optionUntimed background, Step.listUntimed steps,
      isOutline, examples, metaFile, pos⟩

end

mutual

def Feature.untimed : Feature → Feature
  | ⟨header, background, scenarios, file, metas⟩ =>
    ⟨header, background, scenarios.map (·.untimed), file, Feature.listUntimed metas⟩

def Feature.listUntimed : List Feature → List Feature
  | [] => []
  | f :: fs => f.untimed :: Feature.listUntimed fs

end

/-- All that came of a feature but the time that was measured. -/
def Feature.Result.untimed (r : Feature.Result) : Feature.Result :=
  { feature := r.feature.untimed
    status := r.status.untimed
    elapsed := Duration.zero
    attachments := r.attachments }

@[simp] theorem Feature.Result.status_untimed (r : Feature.Result) :
    r.untimed.status = r.status.untimed := rfl

namespace RunM

/-- The outcome of `x` on some files, and the files it leaves. -/
def exec (x : RunM α) (files : FileSystem) : Except RunFailure α × FileSystem :=
  Id.run (x.run.run files)

variable (files : FileSystem)

theorem exec_bind (x : RunM α) (f : α → RunM β) :
    exec (x >>= f) files = match exec x files with
      | (.ok a, files) => exec (f a) files
      | (.error e, files) => (.error e, files) := by
  simp only [exec, ExceptT.run_bind, StateT.run_bind]
  rcases h : Id.run (x.run.run files) with ⟨_ | a, files⟩ <;> simp_all

theorem exec_bind_pure (x : RunM α) (f : α → β) :
    exec (do return f (← x)) files = ((exec x files).1.map f, (exec x files).2) := by
  rw [exec_bind]
  rcases exec x files with ⟨_ | a, files⟩ <;> rfl

@[simp] theorem exec_get_bind (f : FileSystem → RunM α) :
    exec (get >>= f) files = exec (f files) files := rfl

theorem exec_lift_bind (x : Except RunFailure α) (f : α → RunM β) :
    exec (liftM x >>= f) files = match x with
      | .ok a => exec (f a) files
      | .error e => (.error e, files) := by
  cases x <;> rfl

end RunM

open RunM

/-- The values up to the first at which to stop, or all of them. -/
def through (stop : α → Bool) (as : List α) : List α :=
  as.takeWhile (!stop ·) ++ (as.dropWhile (!stop ·)).take 1

section through

variable (stop : α → Bool) (a : α) (as : List α)

theorem through_cons :
    through stop (a :: as) = if stop a then [a] else a :: through stop as := by
  cases h : stop a <;> simp [through, h]

theorem through_eq_self (h : ∀ a ∈ as, stop a = false) : through stop as = as := by
  induction as with
  | nil => rfl
  | cons a as ih => simp_all [through_cons]

theorem map_through {stop : β → Bool} (f : α → β) :
    (through (fun a => stop (f a)) as).map f = through stop (as.map f) := by
  induction as with
  | nil => rfl
  | cons a as ih =>
    rw [List.map_cons, through_cons, through_cons]
    split <;> simp [ih]

/-- What is left out follows a value at which to stop. -/
theorem through_append_rest :
    ∃ rest, as = through stop as ++ rest ∧ (rest = [] ∨ ∃ a ∈ through stop as, stop a = true) := by
  induction as with
  | nil => exact ⟨[], rfl, .inl rfl⟩
  | cons a as ih =>
    obtain ⟨rest, has, hrest⟩ := ih
    rw [through_cons]
    split
    · next ha => exact ⟨as, rfl, .inr ⟨a, by simp, ha⟩⟩
    · refine ⟨rest, by rw [List.cons_append, ← has], hrest.imp_right ?_⟩
      rintro ⟨b, hb, hstop⟩
      exact ⟨b, List.mem_cons_of_mem _ hb, hstop⟩

end through

namespace Run

variable {stop : Feature.Result → Bool} {run : Job → RunM Feature.Result} {jobs : List Job}
  {files : FileSystem} {setup : Setup}
  {own : Job → Except RunFailure Feature.Result} {rs : List Feature.Result}

/-- Jobs done in order, where each has an outcome of its own. -/
theorem runUntil_cons (own : Job → Except RunFailure Feature.Result) (job : Job) :
    runUntil stop own (job :: jobs) = match own job with
      | .ok r => if stop r then .ok [r] else (runUntil stop own jobs).map (r :: ·)
      | .error e => .error e := by
  rw [runUntil]
  rcases own job with _ | r
  · rfl
  · cases h : stop r
    · simp only [bind, Except.bind, h]
      rcases runUntil stop own jobs with _ | rs <;> rfl
    · simp only [bind, Except.bind, h]
      rfl

theorem exec_runUntil_cons (job : Job) :
    exec (runUntil stop run (job :: jobs)) files = match exec (run job) files with
      | (.ok r, files) =>
        if stop r then (.ok [r], files)
        else ((exec (runUntil stop run jobs) files).1.map (r :: ·),
          (exec (runUntil stop run jobs) files).2)
      | (.error e, files) => (.error e, files) := by
  rw [runUntil, exec_bind]
  rcases exec (run job) files with ⟨_ | r, files⟩
  · rfl
  · dsimp only
    split
    · rfl
    · exact exec_bind_pure files _ _

theorem runUntil_ok (h : jobs.map own = rs.map .ok) :
    runUntil stop own jobs = .ok (through stop rs) := by
  induction jobs generalizing rs with
  | nil =>
    cases rs with
    | nil => rfl
    | cons r rs => cases h
  | cons job jobs ih =>
    cases rs with
    | nil => cases h
    | cons r rs =>
      obtain ⟨hjob, hjobs⟩ := List.cons.inj h
      rw [runUntil_cons, hjob, through_cons, ih hjobs]
      dsimp only
      split <;> rfl

theorem runUntil_error {e : RunFailure} (h : runUntil stop own jobs = .error e) :
    ∃ job ∈ jobs, own job = .error e := by
  induction jobs with
  | nil => cases h
  | cons job jobs ih =>
    rw [runUntil_cons] at h
    rcases hjob : own job with e' | r
    · rw [hjob] at h
      cases h
      exact ⟨job, by simp, hjob⟩
    · rw [hjob] at h
      dsimp only at h
      split at h
      · cases h
      · rcases hrest : runUntil stop own jobs with e' | rs
        · rw [hrest] at h
          cases h
          obtain ⟨job', hmem, he⟩ := ih hrest
          exact ⟨job', List.mem_cons_of_mem _ hmem, he⟩
        · rw [hrest] at h
          cases h

theorem map_of_runUntil_ok (hstop : ∀ r, stop r = false) (h : runUntil stop own jobs = .ok rs) :
    jobs.map own = rs.map .ok := by
  induction jobs generalizing rs with
  | nil =>
    cases h
    rfl
  | cons job jobs ih =>
    rw [runUntil_cons] at h
    rcases hjob : own job with _ | r
    · rw [hjob] at h
      cases h
    · rw [hjob] at h
      simp only [hstop, Bool.false_eq_true, if_false] at h
      rcases hrest : runUntil stop own jobs with _ | rest
      · rw [hrest] at h
        cases h
      · rw [hrest] at h
        cases h
        rw [List.map_cons, hjob, ih hrest, List.map_cons]

/-- The files after some jobs, whatever came of them. -/
def filesAfter (run : Job → RunM Feature.Result) (files : FileSystem) (jobs : List Job) :
    FileSystem :=
  jobs.foldl (fun files job => (exec (run job) files).2) files

/-- What comes of a job on some files, but for the time it takes. -/
def outcome (run : Job → RunM Feature.Result) (files : FileSystem) (job : Job) :
    Except RunFailure Feature.Result :=
  (exec (run job) files).1.map (·.untimed)

/-- A job comes to the same but for the time it takes, whichever of the jobs are done before. -/
def Independent (run : Job → RunM Feature.Result) (files : FileSystem) (jobs : List Job) : Prop :=
  ∀ before ⊆ jobs, ∀ job ∈ jobs,
    outcome run (filesAfter run files before) job = outcome run files job

/-- If the files do not matter to the jobs, a run in order can be told from what each job comes to
by itself. -/
theorem untimed_exec_runUntil (hstop : ∀ r : Feature.Result, stop r.untimed = stop r)
    (h : ∀ before job after, jobs = before ++ job :: after →
      outcome run (filesAfter run files before) job = own job) :
    (exec (runUntil stop run jobs) files).1.map (·.map (·.untimed)) = runUntil stop own jobs := by
  induction jobs generalizing files with
  | nil => rfl
  | cons job jobs ih =>
    have hjob := h [] job jobs rfl
    have hrest : (exec (runUntil stop run jobs) (exec (run job) files).2).1.map
        (·.map (·.untimed)) = runUntil stop own jobs :=
      ih fun before job' after hjobs => h (job :: before) job' after (by rw [hjobs]; rfl)
    rw [runUntil_cons, exec_runUntil_cons, ← hjob]
    simp only [outcome, filesAfter, List.foldl_nil]
    rcases hr : exec (run job) files with ⟨e | r, after⟩
    · rfl
    · rw [hr] at hrest
      cases hs : stop r with
      | true => simp [Except.map, hstop, hs]
      | false =>
        rw [← hrest]
        simp only [Except.map, hstop, hs]
        rcases exec (runUntil stop run jobs) after with ⟨_ | rs, _⟩ <;> rfl

/-- What may come of jobs that are done all at once, where each has an outcome of its own: all
results in the order of the jobs, or an error of one of them. The time they take is left open. -/
inductive ParallelMap (own : Job → Except RunFailure Feature.Result) (jobs : List Job) :
    Except RunFailure (List Feature.Result) → Prop
  | ok {rs : List Feature.Result} (h : jobs.map own = rs.map fun r => .ok r.untimed) :
      ParallelMap own jobs (.ok rs)
  | error {job : Job} {e : RunFailure} (hjob : job ∈ jobs) (h : own job = .error e) :
      ParallelMap own jobs (.error e)

/-- Whether a run ends with this result. -/
def stopsAt (setup : Setup) (r : Feature.Result) : Bool :=
  !setup.parallel && setup.options.exitOnFail && r.status.isFailed

@[simp] theorem stopsAt_untimed (setup : Setup) (r : Feature.Result) :
    stopsAt setup r.untimed = stopsAt setup r := by
  simp [stopsAt]

theorem through_stopsAt (setup : Setup) (rs : List Feature.Result) :
    through (stopsAt setup) rs =
      if !setup.parallel && setup.options.exitOnFail then through (·.status.isFailed) rs
      else rs := by
  cases h : !setup.parallel && setup.options.exitOnFail with
  | true => exact congrArg (through · rs) (funext fun r => by rw [stopsAt, h, Bool.true_and])
  | false => simp [through_eq_self, stopsAt, h]

theorem untimed_exec_runAll (setup : Setup) (h : Independent run files jobs) :
    (exec (runAll setup run jobs) files).1.map (·.map (·.untimed)) =
      runUntil (stopsAt setup) (outcome run files) jobs := by
  refine untimed_exec_runUntil (stopsAt_untimed setup) ?_
  rintro before job after rfl
  exact h before (List.subset_append_left _ _) job (by simp)

theorem runAll_ok (setup : Setup) (h : Independent run files jobs)
    (hrs : jobs.map (outcome run files) = rs.map fun r => .ok r.untimed) :
    ∃ done, (exec (runAll setup run jobs) files).1 = .ok done ∧
      done.map (·.untimed) = (through (stopsAt setup) rs).map (·.untimed) := by
  have huntimed : jobs.map (outcome run files) = (rs.map (·.untimed)).map .ok := by
    rw [hrs, List.map_map]
    rfl
  have hall := untimed_exec_runAll setup h
  rw [runUntil_ok huntimed] at hall
  rcases hdone : (exec (runAll setup run jobs) files).1 with _ | done
  · rw [hdone] at hall
    cases hall
  · rw [hdone] at hall
    refine ⟨done, rfl, (Except.ok.inj hall).trans ?_⟩
    rw [← map_through]
    simp only [stopsAt_untimed]

theorem runAll_error (h : Independent run files jobs) {e : RunFailure}
    (he : (exec (runAll setup run jobs) files).1 = .error e) :
    ∃ job ∈ jobs, outcome run files job = .error e := by
  have hall := untimed_exec_runAll setup h
  rw [he] at hall
  exact runUntil_error hall.symm

/-- A run that is parallel by its setup is a parallel one in which the jobs happen to be done in
order. -/
theorem parallelMap_runAll (setup : Setup) (h : Independent run files jobs) :
    ParallelMap (outcome run files) jobs
      (exec (runAll { setup with parallel := true } run jobs) files).1 := by
  rcases hdone : (exec (runAll { setup with parallel := true } run jobs) files).1 with e | done
  · obtain ⟨job, hjob, he⟩ := runAll_error h hdone
    exact .error hjob he
  · have hall := untimed_exec_runAll { setup with parallel := true } h
    rw [hdone] at hall
    refine .ok ?_
    rw [map_of_runUntil_ok (fun r => by simp [stopsAt]) hall.symm, List.map_map]
    rfl

/-- Stopping at a failure does not change the verdict, and neither does the time it takes. -/
theorem sameVerdict_overall {done : List Feature.Result}
    (h : done.map (·.untimed) = (through (stopsAt setup) rs).map (·.untimed)) :
    (overall done).SameVerdict (overall rs) := by
  have htimes : (overall done).SameVerdict (overall (through (stopsAt setup) rs)) := by
    refine .of_untimed (Status.untimed_fold ?_)
    simpa [Function.comp_def] using congrArg (List.map (·.status)) h
  refine htimes.trans ?_
  obtain ⟨rest, hrs, hrest⟩ := through_append_rest (stopsAt setup) rs
  rcases hrest with rfl | ⟨r, hr, hstop⟩
  · rw [List.append_nil] at hrs
    rw [← hrs]
    exact .refl _
  · have hfailed : ∃ p ∈ (through (stopsAt setup) rs).map (·.status), p.isFailed = true :=
      ⟨r.status, List.mem_map_of_mem hr, (Bool.and_eq_true_iff.mp hstop).2⟩
    have happend : (Status.fold ((through (stopsAt setup) rs).map (·.status) ++ [])).SameVerdict
        (Status.fold ((through (stopsAt setup) rs).map (·.status) ++ rest.map (·.status))) :=
      .fold_append hfailed
    rw [List.append_nil, ← List.map_append, ← hrs] at happend
    exact happend

/-- What a command line asks for: the jobs, and how they are to be done. -/
def prepare (files : FileSystem) (c : CommandLine) : Except RunFailure (Setup × List Job) := do
  let features ← (discover files c.paths).mapError (RunFailure.mk · [])
  let settings ← (Settings.loadAll files c.settings).mapError
    (RunFailure.inContext "loading settings" .settings)
  let records ← loadRecords files c.data
  return ({ settings, options := c.options, attachments := c.attachments, parallel := c.parallel },
    schedule features records)

/-- Tells the status in a report, if one is asked for. -/
def conclude (report : Option Path) (results : List Feature.Result) : RunM Status := do
  if let some path := report then putReport path (overall results) results
  return overall results

theorem run_eq (c : CommandLine) (files : FileSystem) :
    exec (Run.run c) files = match prepare files c with
      | .ok (setup, jobs) =>
        exec (runAll setup (Job.evaluate setup) jobs >>= conclude c.report) files
      | .error e => (.error e, files) := by
  rw [Run.run, exec_get_bind, prepare]
  rcases (discover files c.paths).mapError (RunFailure.mk · []) with _ | features
  · rfl
  · rcases (Settings.loadAll files c.settings).mapError
      (RunFailure.inContext "loading settings" .settings) with _ | settings
    · rfl
    · rcases loadRecords files c.data with _ | records
      · rfl
      · rfl

/-- The run comes to this status, and ends with it unless the report cannot be written. -/
def Computes (c : CommandLine) (files : FileSystem) (s : Status) : Prop :=
  (exec (Run.run c) files).1 = .ok s ∨
    ∃ path, c.report = some path ∧ (exec (Run.run c) files).1 = .error { error := .report path }

theorem exec_conclude (report : Option Path) (results : List Feature.Result) (files : FileSystem) :
    (exec (conclude report results) files).1 = .ok (overall results) ∨
      ∃ path, report = some path ∧
        (exec (conclude report results) files).1 = .error { error := .report path } := by
  cases report with
  | none => exact .inl rfl
  | some path =>
    simp only [conclude, putReport, bind_assoc, exec_get_bind]
    split
    · exact .inr ⟨path, rfl, rfl⟩
    · exact .inl rfl

theorem computes_of_runAll {c : CommandLine} {results : List Feature.Result}
    (hc : prepare files c = .ok (setup, jobs))
    (h : (exec (runAll setup (Job.evaluate setup) jobs) files).1 = .ok results) :
    Computes c files (overall results) := by
  rw [Computes, run_eq, hc]
  dsimp only
  rw [exec_bind]
  rcases hr : exec (runAll setup (Job.evaluate setup) jobs) files with ⟨_ | rs, after⟩
  · rw [hr] at h
    cases h
  · rw [hr] at h
    cases h
    exact exec_conclude c.report results after

theorem prepare_with (c : CommandLine) (files : FileSystem) (parallel : Bool)
    (report : Option Path) :
    prepare files { c with parallel, report } =
      (prepare files c).map fun (setup, jobs) => ({ setup with parallel }, jobs) := by
  simp only [prepare]
  rcases (discover files c.paths).mapError (RunFailure.mk · []) with _ | features
  · rfl
  · rcases (Settings.loadAll files c.settings).mapError
      (RunFailure.inContext "loading settings" .settings) with _ | settings
    · rfl
    · rcases loadRecords files c.data with _ | records
      · rfl
      · rfl

/-- A store without a directory stays as it is. -/
theorem store_frame {σ : Type} (action : Action σ) :
    FeatureFrame action fun ctx c => ctx.store.dir = none → c.store = ctx.store where
  refl _ _ := rfl
  trans hab hbc ha := (hbc ((congrArg AttachmentStore.dir (hab ha)).trans ha)).trans (hab ha)
  unbound _ _ _ := rfl
  attached ctx cause h := by
    simp only [Context.attached, Step.attachFailure, EvalM.exec_get_bind, EvalM.exec_set_bind,
      EvalM.exec_pure, AttachmentStore.attach, h]
  acted _ _ _ := rfl
  tabled _ h := h
  called _ _ h := h
  registered _ _ := rfl
  loaded _ _ _ := rfl

theorem exec_evaluate (setup : Setup) (job : Job) (files : FileSystem) :
    exec (job.evaluate setup) files = match Feature.load files job.feature with
      | .error fault =>
        (.error (.inContext ("loading feature " ++ job.feature) .source fault), files)
      | .ok feature =>
        let dir := setup.attachments.map (Job.directory · job)
        let (result, c) := EvalM.exec (feature.run Action.builtin files job.record)
          { settings := setup.settings, options := setup.options, store := { dir, files },
            state := () }
        (result.mapError (.inContext ("evaluating feature " ++ job.feature) .evaluation),
          c.store.files) := by
  rw [Job.evaluate, exec_get_bind]
  rcases Feature.load files job.feature with _ | feature
  · rfl
  · dsimp only
    rcases hr : EvalM.exec (feature.run Action.builtin files job.record) _ with ⟨_ | r, c⟩ <;>
    · simp only [EvalM.exec, Id.run] at hr
      simp only [Outcome.ok_mapError, exec_lift_bind, hr]
      rfl

/-- A job without a directory for attachments leaves the files as they are. -/
theorem files_evaluate (h : setup.attachments = none) (files : FileSystem) (job : Job) :
    (exec (job.evaluate setup) files).2 = files := by
  rw [exec_evaluate]
  split
  · rfl
  · exact congrArg AttachmentStore.files
      ((store_frame Action.builtin).run files _ job.record _ (by rw [h]; rfl))

/-- Without a directory for attachments no job depends on another. -/
theorem independent_of_no_attachments (h : setup.attachments = none) (files : FileSystem)
    (jobs : List Job) : Independent (Job.evaluate setup) files jobs := by
  have hfiles : ∀ before : List Job, filesAfter (Job.evaluate setup) files before = files := by
    intro before
    induction before with
    | nil => rfl
    | cons job before ih =>
      rw [filesAfter, List.foldl_cons, files_evaluate h files, ← filesAfter, ih]
  intro before _ job _
  rw [hfiles]

/-- Runs in order and in parallel agree. A parallel run does every job, and this is so for any way in
which it may come out: if it comes to results, the run in order comes to those up to the first
failure if it is to stop there, and to all of them otherwise; and if the run in order ends in an
error, so does the parallel one. As long as no job ends in an error, both have the same verdict, and
so have the two runs that a command line asks for with and without the flag. -/
theorem parallel_run_agrees {setup : Setup} {jobs : List Job} {files : FileSystem}
    (hjobs : Independent (Job.evaluate setup) files jobs) :
    let inOrder :=
      (exec (runAll { setup with parallel := false } (Job.evaluate setup) jobs) files).1
    let own := outcome (Job.evaluate setup) files
    ParallelMap own jobs
      (exec (runAll { setup with parallel := true } (Job.evaluate setup) jobs) files).1 ∧
    ∀ par, ParallelMap own jobs par →
      (∀ rs, par = .ok rs → ∃ done, inOrder = .ok done ∧
        done.map (·.untimed) =
          (if setup.options.exitOnFail then through (·.status.isFailed) rs else rs).map
            (·.untimed)) ∧
      (∀ e, inOrder = .error e → ∃ e', par = .error e') ∧
      ((∀ job ∈ jobs, ∃ r, own job = .ok r) →
        (∃ done rs, inOrder = .ok done ∧ par = .ok rs ∧
          (overall done).SameVerdict (overall rs)) ∧
        ∀ c, prepare files c = .ok (setup, jobs) → ∃ s t, s.SameVerdict t ∧
          ∀ report, Computes { c with parallel := false, report } files s ∧
            Computes { c with parallel := true, report } files t) := by
  intro inOrder own
  refine ⟨parallelMap_runAll setup hjobs, fun par hpar => ⟨?_, ?_, ?_⟩⟩
  · rintro rs rfl
    cases hpar with
    | ok hrs =>
      obtain ⟨done, hdone, hsame⟩ := runAll_ok { setup with parallel := false } hjobs hrs
      rw [through_stopsAt] at hsame
      exact ⟨done, hdone, hsame⟩
  · intro e he
    obtain ⟨job, hjob, hfault⟩ := runAll_error hjobs he
    cases hpar with
    | error => exact ⟨_, rfl⟩
    | ok hrs =>
      obtain ⟨r, -, hr⟩ := List.mem_map.mp (hrs ▸ List.mem_map_of_mem hjob)
      cases hr.trans hfault
  · intro hok
    cases hpar with
    | error hjob hfault =>
      obtain ⟨r, hr⟩ := hok _ hjob
      cases hr.symm.trans hfault
    | @ok rs hrs =>
      obtain ⟨done, hdone, hsame⟩ := runAll_ok { setup with parallel := false } hjobs hrs
      obtain ⟨all, hall, hsame'⟩ := runAll_ok { setup with parallel := true } hjobs hrs
      refine ⟨⟨done, rs, hdone, rfl, sameVerdict_overall hsame⟩, fun c hc => ?_⟩
      refine ⟨overall done, overall all,
        (sameVerdict_overall hsame).trans (sameVerdict_overall hsame').symm, fun report => ?_⟩
      have hprepare := fun parallel => (prepare_with c files parallel report).trans (by rw [hc])
      exact ⟨computes_of_runAll (hprepare false) hdone, computes_of_runAll (hprepare true) hall⟩

/-- Two features of which the first fails. -/
def doorFiles : FileSystem where
  root := .dir [
    ("knock.feature", .file ("feature:\n name: Knock\nscenarios:\n- name: S\n" ++
      "  steps:\n  - keyword: When\n    expression: knock").toUTF8),
    ("open.feature", .file "feature:\n name: Open\nscenarios: []".toUTF8)]

def doorRun : CommandLine where
  paths := ["/knock.feature", "/open.feature"]
  exitOnFail := true

theorem parallel_run_agrees_door :
    ∃ setup jobs, prepare doorFiles doorRun = .ok (setup, jobs) ∧
      let inOrder := (exec (runAll { setup with parallel := false } (Job.evaluate setup) jobs)
        doorFiles).1
      let par := (exec (runAll { setup with parallel := true } (Job.evaluate setup) jobs)
        doorFiles).1
      (∃ done rs, inOrder = .ok done ∧ par = .ok rs ∧ (overall done).SameVerdict (overall rs)) ∧
      ∃ s t, s.SameVerdict t ∧ ∀ report,
        Computes { doorRun with parallel := false, report } doorFiles s ∧
          Computes { doorRun with parallel := true, report } doorFiles t := by
  have hfacts : (prepare doorFiles doorRun).toOption.map (fun (setup, jobs) =>
      (setup.attachments, jobs.map fun job =>
        (outcome (Job.evaluate setup) doorFiles job).toOption.map (·.status.keyword))) =
      some (none, [some "Failed", some "Skipped"]) := by
    decide +kernel
  rcases hc : prepare doorFiles doorRun with _ | ⟨setup, jobs⟩
  · rw [hc] at hfacts
    cases hfacts
  · refine ⟨setup, jobs, rfl, ?_⟩
    rw [hc] at hfacts
    obtain ⟨hattachments, hkeywords⟩ := Prod.mk.inj (Option.some.inj hfacts)
    have hjobs := independent_of_no_attachments hattachments doorFiles jobs
    have hok : ∀ job ∈ jobs, ∃ r, outcome (Job.evaluate setup) doorFiles job = .ok r := by
      intro job hjob
      have hkeyword := List.mem_map_of_mem (f := fun job =>
        (outcome (Job.evaluate setup) doorFiles job).toOption.map (·.status.keyword)) hjob
      rw [hkeywords] at hkeyword
      rcases hr : outcome (Job.evaluate setup) doorFiles job with _ | r
      · simp [hr, Except.toOption] at hkeyword
      · exact ⟨r, rfl⟩
    obtain ⟨hpar, hagree⟩ := parallel_run_agrees hjobs
    obtain ⟨hresults, hruns⟩ := (hagree _ hpar).2.2 hok
    exact ⟨hresults, hruns doorRun hc⟩

end Run

end Gherkin
