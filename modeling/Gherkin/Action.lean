import Gherkin.Duration
import Gherkin.Scopes
import Gherkin.Settings

/-!
Actions perform the steps that no step definition stands for. The rules built in bind a name to a
value, and assert that it has a value or that it has not.
-/

namespace Gherkin

inductive ActionError where
  | undefined (expression : String)
  | assertion (name expected actual : String)
  | unbound (fault : Unbound)
  | failed (message : String)
deriving DecidableEq, Repr

def ActionError.message : ActionError → String
  | undefined expression => "undefined step: " ++ expression
  | assertion name expected actual =>
    "expected " ++ name ++ " to be " ++ expected ++ " but was " ++ actual
  | unbound fault => fault.message
  | failed message => message

/-- The value of a name in the scopes, or else in the settings. -/
def lookUp? (scopes : Scopes) (settings : Settings) (name : String) : Option String :=
  (scopes.get? name).or (settings.get? name)

def lookUp (scopes : Scopes) (settings : Settings) (name : String) : Except Unbound String :=
  (lookUp? scopes settings name).elim (.error { name }) .ok

/-- What an action leaves behind. -/
structure Performed (σ : Type) where
  result : Except ActionError Unit
  elapsed : Duration := Duration.zero
  scopes : Scopes
  state : σ

/-- Performs the step of a given text. An action may change the scopes and has a state of its own. -/
def Action (σ : Type) := String → Settings → Scopes → σ → Performed σ

namespace Action

inductive Verb where
  | shouldNotBe
  | shouldBe
  | is
deriving DecidableEq, Repr

def Verb.text : Verb → String
  | shouldNotBe => "should not be"
  | shouldBe => "should be"
  | is => "is"

/-- The rules in the order in which they are tried. -/
def Verb.all : List Verb := [shouldNotBe, shouldBe, is]

/-- Reads `name verb "value"`. The name ends at the first verb that a quote follows, and the value
runs to the quote at the very end. -/
def quoted? (expression : String) (verb : Verb) : Option (String × String) := do
  let body ← Text.beforeEnd? ['"'] expression.toList
  let (before, value) ← Text.splitFirst? (" " ++ verb.text ++ " \"").toList body
  let name := Text.trim before
  if name.isEmpty || name.contains '"' then none
  else some (String.ofList name, String.ofList value)

/-- The first rule that recognises an expression, with its name and value. -/
def recognize? (expression : String) : Option (Verb × String × String) :=
  Verb.all.findSome? fun verb => (quoted? expression verb).map (verb, ·)

/-- Whether the name has the value, looked up in the scopes and the settings. -/
def shouldBe (scopes : Scopes) (settings : Settings) (name expected : String) :
    Except ActionError Unit :=
  match lookUp scopes settings name with
  | .error fault => .error (.unbound fault)
  | .ok actual => if actual == expected then .ok () else .error (.assertion name expected actual)

/-- Whether the name has another value or none. -/
def shouldNotBe (scopes : Scopes) (settings : Settings) (name unexpected : String) :
    Except ActionError Unit :=
  if lookUp? scopes settings name == some unexpected then
    .error (.assertion name ("not " ++ unexpected) unexpected)
  else .ok ()

/-- Performs a step by the rules alone. -/
def byRules (expression : String) (settings : Settings) (scopes : Scopes) :
    Except ActionError Unit × Scopes :=
  match recognize? expression with
  | none => (.error (.undefined expression), scopes)
  | some (.is, name, value) => (.ok (), scopes.set Scope.featureName name value)
  | some (.shouldBe, name, value) => (shouldBe scopes settings name value, scopes)
  | some (.shouldNotBe, name, value) => (shouldNotBe scopes settings name value, scopes)

/-- The action that knows the rules and nothing else. -/
def builtin {σ : Type} : Action σ := fun expression settings scopes state =>
  let (result, scopes) := byRules expression settings scopes
  { result, scopes, state }

end Action

end Gherkin
