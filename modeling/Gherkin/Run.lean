import Gherkin.CommandLine
import Gherkin.Evaluate

/-!
A run evaluates every feature that is found with every data record, each in a context of its own,
and tells the outcome in a report.
-/

namespace Gherkin

/-- Why a run ends without a status. -/
inductive RunError where
  | pathNotFound (path : Path)
  | noFeatures
  | emptyData (path : Path)
  | report (path : Path)
  | settings (fault : SettingsError)
  | source (fault : SourceError)
  | evaluation (fault : EvalError)
deriving DecidableEq, Repr

def RunError.message : RunError → String
  | pathNotFound path => "path not found: " ++ path
  | noFeatures => "no .feature files found"
  | emptyData path => "data file " ++ path ++ " has no records"
  | report path => "failed to write report " ++ path
  | settings fault => fault.message
  | source fault => fault.message
  | evaluation fault => fault.message

/-- An error and what was being done when it arose, outermost first. -/
structure RunFailure where
  error : RunError
  context : List String := []
deriving DecidableEq, Repr

/-- An error that arose while something was being done. -/
def RunFailure.inContext {ε : Type} (context : String) (wrap : ε → RunError) (e : ε) : RunFailure :=
  { error := wrap e, context := [context] }

/-- What was being done and what went wrong, on one line. -/
def RunFailure.render (f : RunFailure) : String :=
  ": ".intercalate (f.context ++ [f.error.message])

/-- One evaluation of a feature, with the data record that is bound before. -/
structure Job where
  index : Nat
  feature : Path
  record : Option Record
deriving DecidableEq, Repr

structure Setup where
  settings : Settings := {}
  options : Options := {}
  /-- The directory below which each job has a directory for attachments. -/
  attachments : Option Path := none
  parallel : Bool := false

abbrev RunM := ExceptT RunFailure (StateM FileSystem)

namespace Run

/-- The features below a directory, in the order of their names. -/
def featuresBelow (files : FileSystem) (dir : Path) : List Path :=
  ((files.filesBelow dir).map (·.1)).filter (·.extension? == some Feature.featureExtension)

/-- The files that a path stands for: itself, or the features below a directory. -/
def featuresAt (files : FileSystem) (path : Path) : Except RunError (List Path) :=
  if files.isFile path then .ok [path]
  else if files.isDir path then .ok (featuresBelow files path)
  else .error (.pathNotFound path)

def discover (files : FileSystem) (paths : List Path) : Except RunError (List Path) := do
  let found ← paths.mapM (featuresAt files)
  if found.flatten.isEmpty then .error .noFeatures else .ok found.flatten

/-- Every feature with every record, the records of one feature together. -/
def schedule (features : List Path) (records : List (Option Record)) : List Job :=
  let pairs := features.flatMap fun feature => records.map fun record => (feature, record)
  pairs.zipIdx.map fun ((feature, record), index) => { index, feature, record }

end Run

namespace Job

/-- The directory for the attachments of a job, numbered from 1. -/
def directory (root : Path) (job : Job) : Path :=
  root.join (String.ofList (Text.zeroPadded 3 (job.index + 1)) ++ "-" ++
    job.feature.fileStem?.getD "feature")

/-- Evaluates a job in a new context. -/
def evaluate (setup : Setup) (job : Job) : RunM Feature.Result := do
  let files ← get
  let feature ← (Feature.load files job.feature).mapError
    (RunFailure.inContext ("loading feature " ++ job.feature) .source)
  let dir := setup.attachments.map (directory · job)
  let ctx : Context Unit :=
    { settings := setup.settings, options := setup.options, store := { dir, files }, state := () }
  let (result, ctx) := (feature.run Action.builtin files job.record).run.run ctx
  set ctx.store.files
  result.mapError (RunFailure.inContext ("evaluating feature " ++ job.feature) .evaluation)

end Job

namespace Run

/-- Runs jobs in order, as long as `stop` holds of no result. -/
def runUntil {m : Type → Type} [Monad m] {α : Type} (stop : α → Bool) (run : Job → m α) :
    List Job → m (List α)
  | [] => return []
  | job :: jobs => do
    let result ← run job
    if stop result then return [result]
    else return result :: (← runUntil stop run jobs)

/-- Runs jobs in order. Only when they are not parallel may a failed feature be the last. -/
def runAll {m : Type → Type} [Monad m] (setup : Setup) (run : Job → m Feature.Result)
    (jobs : List Job) : m (List Feature.Result) :=
  runUntil (fun r => !setup.parallel && setup.options.exitOnFail && r.status.isFailed) run jobs

def overall (results : List Feature.Result) : Status :=
  Status.fold (results.map (·.status))

open Json in
def reportOf (status : Status) (results : List Feature.Result) : Json :=
  obj [("status", status.toJson),
    ("features", arr (results.map fun r =>
      obj [("spec", r.feature.toJson), ("status", r.status.toJson), ("elapsed", r.elapsed.toJson),
        ("attachments", arr (r.attachments.map Attachment.toJson))]))]

def putReport (path : Path) (status : Status) (results : List Feature.Result) : RunM Unit := do
  let files ← get
  match files.write? path (reportOf status results).pretty.toUTF8 with
  | none => throw { error := .report path }
  | some files => set files

/-- The records of a data file, or one run without a record. -/
def loadRecords (files : FileSystem) : Option Path → Except RunFailure (List (Option Record))
  | none => .ok [none]
  | some path => do
    let records ← (Record.loadAll files path).mapError
      (RunFailure.inContext ("loading data records from " ++ path) .source)
    if records.isEmpty then throw { error := .emptyData path }
    else return records.map some

/-- Does what a command line asks for. -/
def run (c : CommandLine) : RunM Status := do
  let files ← get
  let features ← (discover files c.paths).mapError (RunFailure.mk · [])
  let settings ← (Settings.loadAll files c.settings).mapError
    (RunFailure.inContext "loading settings" .settings)
  let records ← loadRecords files c.data
  let setup : Setup :=
    { settings, options := c.options, attachments := c.attachments, parallel := c.parallel }
  let results ← runAll setup (Job.evaluate setup) (schedule features records)
  let status := overall results
  if let some path := c.report then putReport path status results
  return status

end Run

end Gherkin
