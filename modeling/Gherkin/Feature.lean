import Gherkin.Status
import Gherkin.Tag

/-!
Features, their scenarios and the steps of these. A step that was given over to a step definition
holds the evaluated scenario of that definition as its body.
-/

namespace Gherkin

inductive Keyword where
  | given
  | when
  | then
  | and
  | but
deriving DecidableEq, Repr

namespace Keyword

def all : List Keyword := [given, when, «then», and, but]

def render : Keyword → String
  | given => "Given"
  | when => "When"
  | «then» => "Then"
  | and => "And"
  | but => "But"

def ofName? (name : String) : Option Keyword :=
  all.find? (·.render == name)

@[simp] theorem ofName?_render (k : Keyword) : ofName? k.render = some k := by
  cases k <;> decide

end Keyword

/-- Line and column in a source text, zero when unknown. -/
structure Position where
  line : Nat := 0
  column : Nat := 0
deriving DecidableEq, Repr, Inhabited

/-- A named file produced by a step. -/
structure Attachment where
  name : String
  file : Path
deriving DecidableEq, Repr, Inhabited

/-- One row of an examples table and the line it was read from. -/
structure Row where
  line : Nat := 0
  cells : List String
deriving DecidableEq, Repr, Inhabited

mutual

structure Step where
  keyword : Keyword
  expression : String
  pos : Position := {}
  table : List (List String) := []
  status : Status := .pending
  attachments : List Attachment := []
  body : Option Scenario := none

structure Background where
  name : String := ""
  description : List String := []
  steps : List Step := []

/-- A table whose first row names the columns, and the scenarios made from it. -/
structure Examples where
  name : String := ""
  description : List String := []
  table : List Row := []
  scenarios : List Scenario := []

structure Scenario where
  tags : List Tag := []
  name : String
  description : List String := []
  background : Option Background := none
  steps : List Step := []
  isOutline : Bool := false
  examples : List Examples := []
  metaFile : Option Path := none
  pos : Position := {}

end

/-- What stands at the head of a feature. -/
structure Header where
  name : String
  description : List String := []
  tags : List Tag := []
deriving DecidableEq, Repr

structure Feature where
  header : Header
  background : Option Background := none
  scenarios : List Scenario := []
  file : Option Path := none
  metas : List Feature := []

namespace Step

def render (s : Step) : String :=
  s.keyword.render ++ " " ++ s.expression

def marked (status : Status) (s : Step) : Step :=
  { s with status }

end Step

namespace Background

def status (b : Background) : Status :=
  Status.fold (b.steps.map (·.status))

def marked (status : Status) (b : Background) : Background :=
  { b with steps := b.steps.map (·.marked status) }

end Background

namespace Examples

/-- The row that names the columns. -/
def columns? (e : Examples) : Option Row :=
  e.table.head?

def dataRows (e : Examples) : List Row :=
  e.table.drop 1

end Examples

namespace Scenario

def isStepDef (s : Scenario) : Bool :=
  s.tags.contains .stepDef

def isIgnored (s : Scenario) : Bool :=
  s.tags.contains .ignore

def backgroundSteps (s : Scenario) : List Step :=
  (s.background.map (·.steps)).getD []

/-- The steps of the background and then the scenario's own. -/
def allSteps (s : Scenario) : List Step :=
  s.backgroundSteps ++ s.steps

def status (s : Scenario) : Status :=
  Status.fold (s.allSteps.map (·.status))

/-- The status, unless the durations of the steps do not sum to a duration. -/
def status? (s : Scenario) : Option Status :=
  Status.fold? (s.allSteps.map (·.status))

/-- Every step, those of the background included, with the given status. -/
def marked (status : Status) (s : Scenario) : Scenario :=
  { s with background := s.background.map (·.marked status)
           steps := s.steps.map (·.marked status) }

end Scenario

namespace Feature

/-- Files of this extension hold step definitions only. -/
def metaExtension : String := "meta"

/-- Files of this extension hold features to be run. -/
def featureExtension : String := "feature"

def isMeta (f : Feature) : Bool :=
  f.file.bind Path.extension? == some metaExtension

/-- The directory from which relative paths in the feature start. -/
def baseDir (f : Feature) : Path :=
  ((f.file.bind Path.parent?).filter (· != "")).getD "."

def status (f : Feature) : Status :=
  Status.fold (f.scenarios.map (·.status))

/-- The status, unless the durations of some scenario, or of all together, do not sum to a
duration. -/
def status? (f : Feature) : Option Status :=
  (f.scenarios.mapM Scenario.status?).bind Status.fold?

/-- The file, or the name of a feature without a file. -/
def label (f : Feature) : String :=
  f.file.getD f.header.name

end Feature

end Gherkin
