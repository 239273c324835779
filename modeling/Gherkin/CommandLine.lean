import Gherkin.Context

/-!
The arguments of the command line. Flags and options may stand anywhere before `--`, and everything
after it is a path. The value of an option is looked at when the next argument begins, so an error
in it can give way to one in that argument.
-/

namespace Gherkin

structure CommandLine where
  paths : List Path := []
  verbose : Bool := false
  dryRun : Bool := false
  failFastFlag : Bool := false
  exitOnFail : Bool := false
  parallel : Bool := false
  jobs : Option Nat := none
  settings : List Path := []
  data : Option Path := none
  attachments : Option Path := none
  report : Option Path := none
deriving DecidableEq, Repr

/-- Why arguments are not run: they are wrong, or ask for help or for the version. -/
inductive CommandLineError where
  | missingRequiredArgument
  | unknownArgument
  | valueValidation
  | invalidValue
  | argumentConflict
  | tooManyValues
  | displayHelp
  | displayVersion
deriving DecidableEq, Repr

namespace CommandLineError

def message : CommandLineError → String
  | missingRequiredArgument => "no path is given"
  | unknownArgument => "unknown argument"
  | valueValidation => "the number of jobs is out of range"
  | invalidValue => "an option has no value"
  | argumentConflict => "an argument is repeated"
  | tooManyValues => "a flag takes no value"
  | displayHelp => "help"
  | displayVersion => "version"

/-- Asking for help or for the version is no mistake. -/
def exitCode : CommandLineError → Nat
  | displayHelp => 0
  | displayVersion => 0
  | _ => 2

end CommandLineError

namespace CommandLine

/-- Leaving out what follows a failure implies skipping it. -/
def failFast (c : CommandLine) : Bool :=
  c.failFastFlag || c.exitOnFail

def options (c : CommandLine) : Options :=
  { dryRun := c.dryRun, failFast := c.failFast, exitOnFail := c.exitOnFail }

/-- The greatest number of workers. -/
def maxJobs : Nat := 64

inductive Flag where
  | verbose
  | dryRun
  | failFast
  | exitOnFail
  | parallel
  | help
  | version
deriving DecidableEq, Repr

/-- An option takes one value. -/
inductive Setting where
  | jobs
  | settings
  | data
  | attachments
  | report
deriving DecidableEq, Repr

inductive Argument where
  | flag (f : Flag)
  | option (o : Setting)
deriving DecidableEq, Repr

/-- Arguments by their long and short names. -/
def table : List (String × Option Char × Argument) :=
  [("verbose", some 'v', .flag .verbose),
   ("dry-run", some 'n', .flag .dryRun),
   ("fail-fast", some 'f', .flag .failFast),
   ("exit-on-fail", none, .flag .exitOnFail),
   ("parallel", some 'p', .flag .parallel),
   ("jobs", some 'j', .option .jobs),
   ("settings", some 's', .option .settings),
   ("data", some 'd', .option .data),
   ("attachments", some 'a', .option .attachments),
   ("report", some 'r', .option .report),
   ("help", some 'h', .flag .help),
   ("version", some 'V', .flag .version)]

/-- What an argument does, in a few words. -/
def Argument.purpose : Argument → String
  | .flag .verbose => "Tell the status at the end"
  | .flag .dryRun => "Take literal steps for passed without performing them"
  | .flag .failFast => "Skip the scenarios after a failure"
  | .flag .exitOnFail => "Stop at the first failure"
  | .flag .parallel => "Evaluate every feature, whatever fails"
  | .flag .help => "Tell how the command is used"
  | .flag .version => "Tell the version"
  | .option .jobs => "Number of workers"
  | .option .settings => "File with settings, may be repeated"
  | .option .data => "File of records, each of which drives one run of every feature"
  | .option .attachments => "Directory for what failures leave behind"
  | .option .report => "File for the report"

/-- The line that explains one argument. -/
def usageLine : String × Option Char × Argument → String
  | (long, short, a) =>
    let letter := short.elim "    " fun c => "-" ++ c.toString ++ ", "
    let value := match a with
      | .flag _ => ""
      | .option _ => " VALUE"
    "  " ++ letter ++ "--" ++ long ++ value ++ ": " ++ a.purpose

def usage : String :=
  "\n".intercalate ("Usage: gherkin [OPTIONS] PATH..." :: "" :: table.map usageLine)

def ofLong? (name : String) : Option Argument :=
  (table.find? (·.1 == name)).map (·.2.2)

def ofShort? (c : Char) : Option Argument :=
  (table.find? (·.2.1 == some c)).map (·.2.2)

abbrev Result := Except CommandLineError

/-- Sets what may be set only once. -/
def setOnce (given : Bool) (line : CommandLine) : Result CommandLine :=
  if given then .error .argumentConflict else .ok line

def raise (c : CommandLine) : Flag → Result CommandLine
  | .verbose => setOnce c.verbose { c with verbose := true }
  | .dryRun => setOnce c.dryRun { c with dryRun := true }
  | .failFast => setOnce c.failFastFlag { c with failFastFlag := true }
  | .exitOnFail => setOnce c.exitOnFail { c with exitOnFail := true }
  | .parallel => setOnce c.parallel { c with parallel := true }
  | .help => .error .displayHelp
  | .version => .error .displayVersion

/-- A path is not empty. -/
def path (value : String) : Result Path :=
  if value == "" then .error .invalidValue else .ok value

def jobCount (value : String) : Result Nat :=
  match Text.unsigned? value.toList with
  | some n =>
    if 1 ≤ n.toNat && n.toNat ≤ maxJobs then .ok n.toNat else .error .valueValidation
  | none => .error .valueValidation

/-- Gives an option its value. Only `settings` may be given more than once. -/
def assign (c : CommandLine) (o : Setting) (value : String) : Result CommandLine := do
  match o with
  | .jobs =>
    let _ ← setOnce c.jobs.isSome c
    return { c with jobs := some (← jobCount value) }
  | .settings => return { c with settings := c.settings ++ [← path value] }
  | .data =>
    let _ ← setOnce c.data.isSome c
    return { c with data := some (← path value) }
  | .attachments =>
    let _ ← setOnce c.attachments.isSome c
    return { c with attachments := some (← path value) }
  | .report =>
    let _ ← setOnce c.report.isSome c
    return { c with report := some (← path value) }

/-- What was read but not looked at yet. -/
inductive Pending where
  | nothing
  | paths (values : List String)
  | option (o : Setting) (value : Option String)
deriving DecidableEq, Repr

structure Progress where
  line : CommandLine := {}
  pending : Pending := .nothing

namespace Progress

/-- Takes up what was read. -/
def settle (p : Progress) : Result CommandLine :=
  match p.pending with
  | .nothing => .ok p.line
  | .paths values => do
    return { p.line with paths := p.line.paths ++ (← values.mapM path) }
  | .option _ none => .error .invalidValue
  | .option o (some value) => p.line.assign o value

def raise (p : Progress) (f : Flag) : Result Progress := do
  return { line := ← (← p.settle).raise f }

/-- An option with the value attached to it, or one that waits for its value. -/
def option (p : Progress) (o : Setting) (attached : Option String) : Result Progress := do
  let line ← p.settle
  match attached with
  | some value => return { line := ← line.assign o value }
  | none => return { line, pending := .option o none }

def addPath (p : Progress) (value : String) : Result Progress :=
  match p.pending with
  | .paths values => .ok { p with pending := .paths (values ++ [value]) }
  | _ => do return { line := ← p.settle, pending := .paths [value] }

/-- An argument that begins with two dashes, and the value after its equals sign. -/
def long (p : Progress) (name : String) (value : Option String) : Result Progress :=
  match ofLong? name, value with
  | none, _ => .error .unknownArgument
  | some (.flag _), some _ => .error .tooManyValues
  | some (.flag f), none => p.raise f
  | some (.option o), value => p.option o value

/-- Letters behind one dash. The first option among them takes what is left as its value. -/
def short (p : Progress) : List Char → Result Progress
  | [] => .ok p
  | c :: cs =>
    match ofShort? c with
    | none => .error .unknownArgument
    | some (.flag f) => do short (← p.raise f) cs
    | some (.option o) =>
      match cs with
      | [] => p.option o none
      | '=' :: value => p.option o (some (String.ofList value))
      | value => p.option o (some (String.ofList value))

/-- An argument without dashes: the value that an option waits for, or a path. -/
def plain (p : Progress) (value : String) : Result Progress :=
  match p.pending with
  | .option o none => .ok { p with pending := .option o (some value) }
  | _ => p.addPath value

end Progress

/-- The name and the value of `name=value`. -/
def splitEquals (s : List Char) : String × Option String :=
  match Text.splitFirst? ['='] s with
  | some (name, value) => (String.ofList name, some (String.ofList value))
  | none => (String.ofList s, none)

def readAll (p : Progress) : List String → Result Progress
  | [] => .ok p
  | arg :: args =>
    match arg.toList with
    | ['-', '-'] => args.foldlM Progress.addPath p
    | '-' :: '-' :: rest => do
      let (name, value) := splitEquals rest
      readAll (← p.long name value) args
    | '-' :: c :: rest => do readAll (← p.short (c :: rest)) args
    | _ => do readAll (← p.plain arg) args

/-- Reads the arguments, the name of the program not among them. -/
def parse (args : List String) : Result CommandLine := do
  let line ← (← readAll {} args).settle
  if line.paths.isEmpty then .error .missingRequiredArgument else .ok line

end CommandLine

end Gherkin
