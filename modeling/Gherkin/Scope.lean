import Gherkin.Pairs

/-!
A scope is a named history of bindings: nothing is overwritten, and the latest binding of a name is
the current one.
-/

namespace Gherkin

structure Scope where
  name : String
  bindings : Pairs := []
deriving DecidableEq, Repr

namespace Scope

/-- The scope opened for the parameters of a step definition. -/
def stepDefName : String := "stepdef"

/-- The scope that lasts as long as a feature. -/
def featureName : String := "feature"

def set (s : Scope) (name value : String) : Scope :=
  { s with bindings := s.bindings ++ [(name, value)] }

/-- Every value bound to a name, oldest first. -/
def getAll (s : Scope) (name : String) : List String :=
  (s.bindings.filter (·.1 == name)).map (·.2)

/-- The latest value bound to a name. -/
def get? (s : Scope) (name : String) : Option String :=
  (s.bindings.reverse.find? (·.1 == name)).map (·.2)

/-- Each name with its latest value, in the order of the first bindings. -/
def visible (s : Scope) : Pairs :=
  Pairs.putAll [] s.bindings

def filter (keep : String → String → Bool) (s : Scope) : Scope :=
  { s with bindings := s.bindings.filter fun (name, value) => keep name value }

def isEmpty (s : Scope) : Bool :=
  s.bindings.isEmpty

theorem get?_eq_none_iff {s : Scope} {name : String} :
    s.get? name = none ↔ ∀ value, (name, value) ∉ s.bindings := by
  change Pairs.get? s.bindings.reverse name = none ↔ _
  simp only [Pairs.get?_eq_none_iff, List.mem_reverse]

theorem get?_set (s : Scope) (name value m : String) :
    (s.set name value).get? m = if name = m then some value else s.get? m := by
  change Pairs.get? (s.bindings ++ [(name, value)]).reverse m = _
  rw [List.reverse_concat, Pairs.get?_cons]
  rfl

end Scope

end Gherkin
