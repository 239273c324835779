import Gherkin.Json.Basic

/-!
Objects bound by name. Each name has a stack of its own, and a name without a binding is gone.
-/

namespace Gherkin

/-- The names in the order in which they were first bound, each with its stack, top first. -/
structure Objects where
  held : List (String × List Json) := []

namespace Objects

def empty : Objects := {}

def pushTo (name : String) (value : Json) : List (String × List Json) → List (String × List Json)
  | [] => [(name, [value])]
  | (n, stack) :: rest =>
    if n == name then (n, value :: stack) :: rest else (n, stack) :: pushTo name value rest

/-- The stacks after the top of one was taken off. -/
def popFrom (name : String) : List (String × List Json) → List (String × List Json)
  | [] => []
  | (n, stack) :: rest =>
    if n == name then
      match stack with
      | _ :: next :: below => (n, next :: below) :: rest
      | _ => rest
    else (n, stack) :: popFrom name rest

def bind (o : Objects) (name : String) (value : Json) : Objects :=
  { held := pushTo name value o.held }

/-- The object bound last. -/
def get? (o : Objects) (name : String) : Option Json :=
  (o.held.lookup name).bind List.head?

/-- Takes off the object bound last. -/
def clear (o : Objects) (name : String) : Objects :=
  { held := popFrom name o.held }

/-- Takes off the object bound last and tells which it was. -/
def take (o : Objects) (name : String) : Option Json × Objects :=
  (o.get? name, o.clear name)

def names (o : Objects) : List String :=
  o.held.map (·.1)

def isEmpty (o : Objects) : Bool :=
  o.held.isEmpty

end Objects

end Gherkin
