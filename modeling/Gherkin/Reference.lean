import Gherkin.Scopes
import Gherkin.Text.Blank

/-!
References in the text of a step: `$<name>` to an attribute and `${name}` to a setting. The text
alone decides where references are; the values put in their place are not looked at again.
-/

namespace Gherkin

inductive Reference where
  | bound (name : String)
  | setting (name : String)
deriving DecidableEq, Repr

namespace Reference

def name : Reference → String
  | bound n => n
  | setting n => n

/-- No reference has a blank or the beginning of another reference in its name. -/
def isName (name : List Char) : Bool :=
  !name.isEmpty && !name.any fun c => Text.isBlank c || c == '$' || c == '<' || c == '\x7b'

/-- The name up to the first closing character and what follows it. -/
def name? (close : Char) (s : List Char) : Option (List Char × List Char) :=
  match Text.splitFirst? [close] s with
  | some (name, rest) => if isName name then some (name, rest) else none
  | none => none

/-- The reference that follows a dollar sign. -/
def read? : List Char → Option (Reference × List Char)
  | '<' :: s => (name? '>' s).map fun (name, rest) => (bound (String.ofList name), rest)
  | '\x7b' :: s => (name? '\x7d' s).map fun (name, rest) => (setting (String.ofList name), rest)
  | _ => none

theorem length_lt_of_name? {close : Char} {s name rest : List Char}
    (h : name? close s = some (name, rest)) : rest.length < s.length := by
  simp only [name?] at h
  split at h
  · next hsplit =>
    split at h
    · simp only [Option.some.injEq, Prod.mk.injEq] at h
      exact h.2 ▸ Text.length_lt_of_splitFirst? hsplit
    · simp at h
  · simp at h

theorem length_lt_of_read? {s rest : List Char} {r : Reference}
    (h : read? s = some (r, rest)) : rest.length < s.length := by
  unfold read? at h
  split at h
  · obtain ⟨_, hname, h⟩ := Option.map_eq_some_iff.mp h
    cases h
    exact Nat.lt_succ_of_lt (length_lt_of_name? hname)
  · obtain ⟨_, hname, h⟩ := Option.map_eq_some_iff.mp h
    cases h
    exact Nat.lt_succ_of_lt (length_lt_of_name? hname)
  · cases h

/-- Reads the rest of a text from left to right, behind what was made of the part before it. Two
dollar signs stand for one, and a dollar sign that begins no reference stands for itself. Each
reference is asked for as it comes, up to the first for which there is no value. -/
def fillFrom [Monad m] (resolve : Reference → m (Option String)) (out s : List Char) :
    m (Except Unbound (List Char)) :=
  match _hs : Text.splitFirst? ['$'] s with
  | none => pure (.ok (out ++ s))
  | some (before, '$' :: rest) => fillFrom resolve (out ++ before ++ ['$']) rest
  | some (before, after) =>
    match _ha : read? after with
    | none => fillFrom resolve (out ++ before ++ ['$']) after
    | some (r, rest) => do
      match ← resolve r with
      | none => return .error { name := r.name }
      | some value => fillFrom resolve (out ++ before ++ value.toList) rest
termination_by s.length
decreasing_by
  · exact Nat.lt_of_succ_lt (Text.length_lt_of_splitFirst? _hs)
  · exact Text.length_lt_of_splitFirst? _hs
  · exact Nat.lt_trans (length_lt_of_read? _ha) (Text.length_lt_of_splitFirst? _hs)

/-- The text with a value in the place of each reference. -/
def interpolateM [Monad m] (resolve : Reference → m (Option String)) (text : String) :
    m (Except Unbound String) := do
  return (← fillFrom resolve [] text.toList).map String.ofList

/-- The text with a value in the place of each reference, when the values do not change. -/
def interpolate (resolve : Reference → Option String) (text : String) : Except Unbound String :=
  Id.run (interpolateM (fun r => pure (resolve r)) text)

def escapeChars (s : List Char) : List Char :=
  s.flatMap fun c => if c = '$' then ['$', '$'] else [c]

/-- The text that interpolation turns into `text`, whatever the values. -/
def escape (text : String) : String :=
  String.ofList (escapeChars text.toList)

end Reference

end Gherkin
