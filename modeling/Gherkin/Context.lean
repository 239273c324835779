import Gherkin.Action
import Gherkin.AttachmentStore
import Gherkin.Normal
import Gherkin.Registry

/-!
What evaluation reads and changes. The context outlives an error: whatever was changed before it
stays changed.
-/

namespace Gherkin

structure Options where
  /-- Take literal steps for passed without performing them. -/
  dryRun : Bool := false
  /-- Skip the scenarios after a failure. -/
  failFast : Bool := false
  /-- Leave out the scenarios after a failure. -/
  exitOnFail : Bool := false
deriving DecidableEq, Repr

/-- A call of a step definition: its name and the text of the step. -/
structure Frame where
  name : String
  expression : String
deriving DecidableEq, Repr

/-- What happened during evaluation. -/
inductive Event where
  /-- The text of a step referred to a name without a value. -/
  | unbound (fault : Unbound)
  /-- An action was performed, while `table` was bound as the table of the step. -/
  | performed (expression : String) (table : Option Json) (result : Except ActionError Unit)
      (elapsed : Duration)
  /-- A step definition was called; its frame is the first of the chain. -/
  | called (chain : List Frame)

structure Context (σ : Type) where
  scopes : Scopes := {}
  registry : Registry := {}
  settings : Settings := {}
  store : AttachmentStore := {}
  loaded : LoadedPaths := {}
  options : Options := {}
  /-- The calls of step definitions that have not returned, innermost first. -/
  calls : List Frame := []
  /-- What happened so far, oldest first. -/
  journal : List Event := []
  /-- The state of the action. -/
  state : σ

/-- An error that ends evaluation. A step that fails is none. -/
inductive EvalError where
  | stepDef (fault : StepDefError)
  | source (fault : SourceError)
  | metaFailed (path : Path) (cause : String)
deriving DecidableEq, Repr

def EvalError.message : EvalError → String
  | stepDef fault => fault.message
  | source fault => fault.message
  | metaFailed path cause => "meta file " ++ path ++ " failed to load: " ++ cause

abbrev EvalM (σ : Type) := ExceptT EvalError (StateM (Context σ))

namespace Context

variable {σ : Type}

/-- Attributes are looked up in the scopes first, and settings in the settings first. -/
def resolve (ctx : Context σ) : Reference → Option String
  | .bound name => (ctx.scopes.get? name).or (ctx.settings.get? name)
  | .setting name => (ctx.settings.get? name).or (ctx.scopes.get? name)

/-- The value of an attribute. -/
def valueOf (ctx : Context σ) (name : String) : Except Unbound String :=
  lookUp ctx.scopes ctx.settings name

def note (e : Event) (ctx : Context σ) : Context σ :=
  { ctx with journal := ctx.journal ++ [e] }

/-- Clears what a run bound. Step definitions and loaded meta files stay. -/
def reset (ctx : Context σ) : Context σ :=
  { ctx with scopes := ctx.scopes.reset, calls := [] }

end Context

/-- Changes the context after `x`, whether `x` succeeds or not. -/
def EvalM.ensuring {σ α : Type} (cleanup : Context σ → Context σ) (x : EvalM σ α) : EvalM σ α :=
  ExceptT.mk do
    let result ← x.run
    modify cleanup
    return result

end Gherkin
