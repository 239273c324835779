import Gherkin.Scope
import Gherkin.Objects
import Gherkin.Text.Split

/-!
The scopes that are open during evaluation. Below all of them lies the feature scope, which is never
closed. It also keeps the values that were hidden in a scope still open.
-/

namespace Gherkin

/-- A value that a later binding hid in an open scope. The depth is that of the scope, counted
from 1. -/
structure Flash where
  scope : String
  name : String
  value : String
  depth : Nat
deriving DecidableEq, Repr

/-- The open scopes, innermost first, and what belongs to the feature. -/
structure Scopes where
  opened : List Scope := []
  feature : Scope := { name := Scope.featureName }
  flash : List Flash := []
  objects : Objects := {}

namespace Scopes

def new : Scopes := {}

def depth (s : Scopes) : Nat :=
  s.opened.length

/-- All scopes, innermost first and the feature scope last. -/
def all (s : Scopes) : List Scope :=
  s.opened ++ [s.feature]

def current (s : Scopes) : Scope :=
  s.opened.headD s.feature

def push (s : Scopes) (scope : Scope) : Scopes :=
  { s with opened := scope :: s.opened }

/-- Closes the innermost scope and forgets what was hidden in it. -/
def pop (s : Scopes) : Scopes :=
  match s.opened with
  | [] => s
  | _ :: rest => { s with opened := rest, flash := s.flash.filter (·.depth != s.depth) }

/-- Closes scopes until no more than `depth` are open. -/
def truncate (s : Scopes) (depth : Nat) : Scopes :=
  go (s.depth - depth) s
where
  go : Nat → Scopes → Scopes
    | 0, s => s
    | n + 1, s => go n s.pop

/-- Binds in the nearest of these scopes that has the given name. -/
def setNearest? (scope name value : String) : List Scope → Option (List Scope)
  | [] => none
  | s :: ss =>
    if s.name == scope then some (s.set name value :: ss)
    else (setNearest? scope name value ss).map (s :: ·)

/-- The key itself or a key below it, as in `name/part`. -/
def isKeyOrBelow (name key : String) : Bool :=
  match Text.afterStart? name.toList key.toList with
  | none => false
  | some [] => true
  | some (c :: _) => c == '/'

/-- The values that binding `name` hides, when the innermost scope is the one it is bound in. -/
def hidden (s : Scopes) (scope name : String) : List Flash :=
  match s.opened with
  | [] => []
  | top :: _ =>
    if top.name == scope then
      (top.visible.filter fun (key, _) => isKeyOrBelow name key).map fun (key, value) =>
        { scope, name := key, value, depth := s.depth }
    else []

/-- Binds a name in the feature scope, if that is the scope named, or else in the nearest open scope
of that name. Without such a scope one is opened. -/
def set (s : Scopes) (scope name value : String) : Scopes :=
  if scope == Scope.featureName then { s with feature := s.feature.set name value }
  else
    match setNearest? scope name value s.opened with
    | none => s.push { name := scope, bindings := [(name, value)] }
    | some opened => { s with opened, flash := s.flash ++ s.hidden scope name }

/-- The current value in the innermost scope that binds the name. -/
def get? (s : Scopes) (name : String) : Option String :=
  s.all.findSome? (·.get? name)

/-- The name and the visible bindings of each scope, innermost first. -/
def visible (s : Scopes) : List (String × Pairs) :=
  s.all.map fun scope => (scope.name, scope.visible)

/-- Keeps the scopes, and in them the bindings that are accepted. Objects are not kept. -/
def filter (keep : String → String → Bool) (s : Scopes) : Scopes :=
  { opened := s.opened.map (·.filter keep)
    feature := s.feature.filter keep
    flash := s.flash.filter fun f => keep f.name f.value
    objects := Objects.empty }

/-- Closes every scope and clears the feature scope. -/
def reset (s : Scopes) : Scopes :=
  { opened := [], feature := { s.feature with bindings := [] }, flash := [], objects := Objects.empty }

def bindObject (s : Scopes) (name : String) (value : Json) : Scopes :=
  { s with objects := s.objects.bind name value }

def clearObject (s : Scopes) (name : String) : Scopes :=
  { s with objects := s.objects.clear name }

open Json in
/-- The fields that describe one scope. -/
def scopeFields (s : Scope) : List (String × Json) :=
  [("scope", str s.name), ("atts", arr (s.bindings.map fun (k, v) => obj [(k, str v)]))]

open Json in
/-- All scopes with their whole history, innermost first. -/
def snapshot (s : Scopes) : Json :=
  let flash := s.flash.map fun f =>
    obj [("scope", str f.scope), ("name", str f.name), ("value", str f.value)]
  let hidden := if flash.isEmpty then [] else [("flash", arr flash)]
  let opened := s.opened.map fun scope => obj (scopeFields scope)
  obj [("scopes", arr (opened ++ [obj (scopeFields s.feature ++ hidden)]))]

theorem get?_eq_none_iff {s : Scopes} {name : String} :
    s.get? name = none ↔ ∀ scope ∈ s.all, ∀ value, (name, value) ∉ scope.bindings := by
  simp only [get?, List.findSome?_eq_none_iff, Scope.get?_eq_none_iff]

/-- The feature scope is asked last. -/
theorem get?_eq_or (s : Scopes) (name : String) :
    s.get? name = (s.opened.findSome? (·.get? name)).or (s.feature.get? name) := by
  rw [get?, all, List.findSome?_append, List.findSome?_singleton]

end Scopes

/-- A name that no scope binds. -/
structure Unbound where
  name : String
deriving DecidableEq, Repr

def Unbound.message (e : Unbound) : String :=
  "unbound reference: " ++ e.name

/-- The current value, or the name for which there is none. -/
def Scopes.get (s : Scopes) (name : String) : Except Unbound String :=
  (s.get? name).elim (.error { name }) .ok

end Gherkin
