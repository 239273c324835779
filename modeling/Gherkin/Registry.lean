import Gherkin.Feature
import Gherkin.Template

/-!
Step definitions by name. A step is resolved by its exact text first and by the templates it matches
otherwise. Each name keeps the place of its first registration.
-/

namespace Gherkin

/-- What keeps a step definition from being registered, found or called. -/
inductive StepDefError where
  | ambiguous (expression : String) (candidates : List String)
  | repeated (fault : Template.Repeated)
  | keywordName (name : String) (keyword : Keyword)
  | infiniteRecursion (name expression : String)
deriving DecidableEq, Repr

def StepDefError.message : StepDefError → String
  | ambiguous expression candidates =>
    "ambiguous step '" ++ expression ++ "' matches StepDefs: " ++ ", ".intercalate candidates
  | repeated fault => fault.message
  | keywordName name keyword =>
    "StepDef '" ++ name ++ "' must not start with the keyword '" ++ keyword.render ++ "'"
  | infiniteRecursion name expression =>
    "infinite recursion evaluating StepDef '" ++ name ++ "' for step '" ++ expression ++ "'"

/-- The scenarios registered, each under its name. -/
structure Registry where
  stepDefs : List Scenario := []

namespace Registry

def empty : Registry := {}

def names (r : Registry) : List String :=
  r.stepDefs.map (·.name)

def size (r : Registry) : Nat :=
  r.stepDefs.length

def get? (r : Registry) (name : String) : Option Scenario :=
  r.stepDefs.find? (·.name == name)

/-- The keyword that a name begins with, as a word of its own. -/
def firstKeyword? (name : String) : Option Keyword :=
  Keyword.ofName? (String.ofList (Text.firstWord name.toList))

/-- Takes the place of the scenario of the same name, or the last place. -/
def insert (s : Scenario) : List Scenario → List Scenario
  | [] => [s]
  | t :: ts => if t.name == s.name then s :: ts else t :: insert s ts

/-- With the tag of a step definition, in front if it was missing. -/
def asStepDef (s : Scenario) : Scenario :=
  if s.isStepDef then s else { s with tags := .stepDef :: s.tags }

/-- The tags of an earlier registration that tell its meta files, without those already there. -/
def inheritedTags (previous : Scenario) (tags : List Tag) : List Tag :=
  previous.tags.filter fun t => t.isDefinedIn && !tags.any (·.same t)

/-- Registers a step definition. One of the same name is replaced, but the meta files it came from
are remembered. -/
def add (r : Registry) (s : Scenario) : Except StepDefError Registry :=
  match firstKeyword? s.name with
  | some keyword => .error (.keywordName s.name keyword)
  | none =>
    match Template.check s.name with
    | .error fault => .error (.repeated fault)
    | .ok () =>
      let s := asStepDef s
      let inherited := (r.get? s.name).elim [] (inheritedTags · s.tags)
      .ok { stepDefs := insert { s with tags := s.tags ++ inherited } r.stepDefs }

/-- A step definition and the values of its placeholders. -/
structure Resolved where
  stepDef : Scenario
  params : Pairs

/-- The step definitions whose templates the expression matches, in order. -/
def matching (expression : String) : List Scenario → Except Template.Repeated (List Resolved)
  | [] => .ok []
  | s :: ss => do
    let found ← Template.matching s.name expression
    let rest ← matching expression ss
    match found with
    | some params => .ok ({ stepDef := s, params } :: rest)
    | none => .ok rest

/-- The step definition for an expression. An exact name wins over every template; two templates
that match are an error. -/
def resolve (r : Registry) (expression : String) : Except StepDefError (Option Resolved) :=
  match r.get? expression with
  | some stepDef => .ok (some { stepDef, params := [] })
  | none =>
    match matching expression r.stepDefs with
    | .error fault => .error (.repeated fault)
    | .ok [] => .ok none
    | .ok [found] => .ok (some found)
    | .ok several => .error (.ambiguous expression (several.map (·.stepDef.name)))

end Registry

end Gherkin
