import Gherkin.Context

/-!
Evaluation of steps, scenarios and features. A step that fails is recorded, and the steps after it
are skipped; only a step definition that cannot be found or called for certain is an error.
-/

namespace Gherkin

variable {σ : Type}

/-- Step definitions call each other no deeper than this. -/
def maxCallDepth : Nat := 128

/-- The name under which the table of a step is bound. -/
def tableObject : String := "table"

namespace Step

/-- Attaches the cause of a failure and a picture of the scopes. What cannot be written is left
out. -/
def attachFailure (cause : String) : EvalM σ (List Attachment) := do
  let ctx ← get
  let environment := ctx.scopes.snapshot.pretty
  let (details, store) := ctx.store.attach "Error details" "txt" cause.toUTF8
  let (picture, store) := store.attach "Environment" "json" environment.toUTF8
  set { ctx with store }
  return [details, picture].filterMap fun
    | .written a => some a
    | _ => none

def fail (s : Step) (elapsed : Duration) (cause : String) : EvalM σ Step := do
  let attached ← attachFailure cause
  return { s with status := .failed elapsed cause, attachments := s.attachments ++ attached }

/-- Performs a step that no step definition stands for. -/
def perform (action : Action σ) (s : Step) (expression : String) : EvalM σ Step := do
  let ctx ← get
  if ctx.options.dryRun then return s.marked (.passed Duration.zero)
  else
    let done := action expression ctx.settings ctx.scopes ctx.state
    let table := ctx.scopes.objects.get? tableObject
    set (({ ctx with scopes := done.scopes, state := done.state }).note
      (.performed expression table done.result done.elapsed))
    match done.result with
    | .ok () => return s.marked (.passed done.elapsed)
    | .error fault => s.fail done.elapsed fault.message

def recursion (stepDef : Scenario) (expression : String) : EvalError :=
  .stepDef (.infiniteRecursion stepDef.name expression)

/-- Calls a step definition: its parameters have a scope of their own, which is closed when it
returns together with every scope opened inside. -/
def call (run : Scenario → EvalM σ Scenario) (s : Step) (expression : String)
    (found : Registry.Resolved) : EvalM σ Step := do
  let ctx ← get
  let frame : Frame := { name := found.stepDef.name, expression }
  if ctx.calls.contains frame then throw (recursion found.stepDef expression)
  else
    let depth := ctx.scopes.depth
    let leave (ctx : Context σ) : Context σ :=
      { ctx with scopes := ctx.scopes.truncate depth, calls := ctx.calls.drop 1 }
    let body ← EvalM.ensuring leave do
      modify fun ctx =>
        ({ ctx with
          calls := frame :: ctx.calls
          scopes := ctx.scopes.push { name := Scope.stepDefName, bindings := found.params } }).note
          (.called (frame :: ctx.calls))
      run found.stepDef
    return { s with status := body.status, body := some body }

/-- Calls the step definition of a step, or performs the step if there is none. -/
def carryOut (action : Action σ) (call : Step → String → Registry.Resolved → EvalM σ Step)
    (s : Step) (expression : String) : EvalM σ Step := do
  match (← get).registry.resolve expression with
  | .error fault => throw (.stepDef fault)
  | .ok (some found) => call s expression found
  | .ok none => s.perform action expression

/-- Binds the table of a step while `x` runs. A step without a table binds nothing. -/
def withTable {α : Type} (s : Step) (x : EvalM σ α) : EvalM σ α := do
  if s.table.isEmpty then x
  else
    modify fun ctx =>
      { ctx with scopes := ctx.scopes.bindObject tableObject (.arr (s.table.map Json.strings)) }
    EvalM.ensuring (fun ctx => { ctx with scopes := ctx.scopes.clearObject tableObject }) x

/-- Evaluates a step, given how step definitions are called. -/
def evaluateWith (action : Action σ) (call : Step → String → Registry.Resolved → EvalM σ Step)
    (s : Step) : EvalM σ Step := do
  match Reference.interpolate (← get).resolve s.expression with
  | .error fault =>
    modify (·.note (.unbound fault))
    s.fail Duration.zero fault.message
  | .ok expression => s.withTable (s.carryOut action call expression)

end Step

/-- Evaluates steps in order. Those after a failure are skipped. -/
def evaluateSteps (evaluate : Step → EvalM σ Step) : List Step → EvalM σ (List Step)
  | [] => return []
  | s :: ss => do
    let done ← evaluate s
    if done.status.isFailed then return done :: ss.map (·.marked .skipped)
    else return done :: (← evaluateSteps evaluate ss)

/-- Evaluates the background and then the steps, which are skipped if the background fails. -/
def Scenario.evaluateBody (evaluate : Step → EvalM σ Step) (s : Scenario) : EvalM σ Scenario := do
  match s.background with
  | none => return { s with steps := ← evaluateSteps evaluate s.steps }
  | some b =>
    let done := { b with steps := ← evaluateSteps evaluate b.steps }
    if done.status.isFailed then
      return { s with background := some done, steps := s.steps.map (·.marked .skipped) }
    else
      return { s with background := some done, steps := ← evaluateSteps evaluate s.steps }

/-- Evaluates a step, where step definitions may still be nested `room` deep. -/
def Step.evaluate (action : Action σ) : (room : Nat) → Step → EvalM σ Step
  | 0 => Step.evaluateWith action fun _ expression found =>
      throw (Step.recursion found.stepDef expression)
  | room + 1 => Step.evaluateWith action fun s expression found =>
      s.call (Scenario.evaluateBody (Step.evaluate action room)) expression found

/-- How deep step definitions may still be nested. -/
def Context.room (ctx : Context σ) : Nat :=
  maxCallDepth - ctx.calls.length

/-- Evaluates a scenario. A step definition is registered instead, and an ignored scenario
skipped. -/
def Scenario.evaluate (action : Action σ) (s : Scenario) : EvalM σ Scenario := do
  let ctx ← get
  if s.isStepDef then
    match ctx.registry.add s with
    | .error fault => throw (.stepDef fault)
    | .ok registry =>
      set { ctx with registry }
      return s.marked .loaded
  else if s.isIgnored then return s.marked .skipped
  else s.evaluateBody (Step.evaluate action ctx.room)

/-- Evaluates scenarios in order. What becomes of those after a failure is told by the options. -/
def evaluateScenarios (action : Action σ) : (failed : Bool) → List Scenario → EvalM σ (List Scenario)
  | _, [] => return []
  | failed, s :: ss => do
    let options := (← get).options
    if failed && options.exitOnFail then return []
    else if failed && options.failFast then return (s :: ss).map (·.marked .skipped)
    else
      let done ← s.evaluate action
      return done :: (← evaluateScenarios action (failed || done.status.isFailed) ss)

namespace Feature

/-- Registers the step definitions of a meta file. -/
def register (action : Action σ) (f : Feature) : EvalM σ Feature := do
  let done := { f with scenarios := ← evaluateScenarios action false f.scenarios }
  let path := f.file.getD ""
  match done.status.cause? with
  | some cause => throw (.metaFailed path cause)
  | none =>
    modify fun ctx => { ctx with loaded := ctx.loaded.insert path }
    return done

/-- What came of a feature. -/
structure Result where
  feature : Feature
  status : Status
  elapsed : Duration
  attachments : List Attachment

/-- The time that actions took. -/
def elapsed (events : List Event) : Duration :=
  Duration.sum (events.filterMap fun
    | .performed _ _ _ d => some d
    | _ => none)

/-- Evaluates a feature in normal form: its meta files first and then its scenarios. -/
def evaluate (action : Action σ) (f : Feature) : EvalM σ Result := do
  let before := (← get).journal.length
  let metas ← f.metas.mapM (register action)
  let scenarios ← evaluateScenarios action false f.scenarios
  let done := { f with scenarios, metas }
  if f.isMeta then
    modify fun ctx => { ctx with loaded := f.file.elim ctx.loaded ctx.loaded.insert }
  let ctx ← get
  return {
    feature := done
    status := done.status
    elapsed := elapsed (ctx.journal.drop before)
    attachments := ctx.store.list }

/-- Brings a feature into its normal form and evaluates it. -/
def run (action : Action σ) (files : FileSystem) (f : Feature)
    (record : Option Record) : EvalM σ Result := do
  match f.normalize files (← get).loaded record with
  | .error fault => throw (.source fault)
  | .ok normal => normal.evaluate action

end Feature

end Gherkin
