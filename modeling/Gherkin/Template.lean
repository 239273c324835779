import Gherkin.Pairs
import Gherkin.Text.Blank
import Gherkin.Text.Split

/-!
Templates are texts with placeholders `<name>`. Splitting one into segments loses nothing, and
matching an expression against one takes the shortest value for each placeholder, left to right.
-/

namespace Gherkin

namespace Template

inductive Segment where
  | literal (text : List Char)
  | placeholder (name : String)
deriving DecidableEq, Repr

/-- A name is not empty, has no blank at either end and no opening bracket inside. -/
def isName (name : List Char) : Bool :=
  !name.isEmpty && !name.contains '<' && Text.trim name == name

/-- The name behind an opening bracket and what follows its closing bracket. -/
def name? (s : List Char) : Option (List Char × List Char) :=
  match Text.splitFirst? ['>'] s with
  | some (name, rest) => if isName name then some (name, rest) else none
  | none => none

theorem eq_append_of_name? {s name rest : List Char} (h : name? s = some (name, rest)) :
    s = name ++ '>' :: rest := by
  simp only [name?] at h
  split at h
  · next heq =>
    split at h
    · simp only [Option.some.injEq, Prod.mk.injEq] at h
      obtain ⟨rfl, rfl⟩ := h
      simpa using Text.eq_append_of_splitFirst? heq
    · simp at h
  · simp at h

theorem length_lt_of_name? {s name rest : List Char} (h : name? s = some (name, rest)) :
    rest.length < s.length := by
  rw [eq_append_of_name? h, List.length_append, List.length_cons]
  omega

/-- Puts a character in front of the first segment. -/
def consLiteral (c : Char) : List Segment → List Segment
  | .literal text :: segments => .literal (c :: text) :: segments
  | segments => .literal [c] :: segments

/-- The segments of a template. A bracket that opens no placeholder is literal text. -/
def segments : List Char → List Segment
  | [] => []
  | c :: s =>
    if c = '<' then
      match _h : name? s with
      | some (name, rest) => .placeholder (String.ofList name) :: segments rest
      | none => consLiteral c (segments s)
    else consLiteral c (segments s)
termination_by s => s.length
decreasing_by
  · exact Nat.lt_succ_of_lt (length_lt_of_name? _h)
  · exact Nat.lt_succ_self _
  · exact Nat.lt_succ_self _

def Segment.name? : Segment → Option String
  | literal _ => none
  | placeholder name => some name

def Segment.isPlaceholder (s : Segment) : Bool :=
  s.name?.isSome

/-- The text a segment was read from. -/
def Segment.toText : Segment → List Char
  | literal text => text
  | placeholder name => '<' :: (name.toList ++ ['>'])

/-- The names of the placeholders in order. -/
def placeholders (template : String) : List String :=
  (segments template.toList).filterMap Segment.name?

/-- The first element of a list that occurred before, given those that came earlier. -/
def firstRepeat? (seen : List String) : List String → Option String
  | [] => none
  | x :: xs => if seen.contains x then some x else firstRepeat? (x :: seen) xs

/-- A template that uses one placeholder twice. -/
structure Repeated where
  template : String
  placeholder : String
deriving DecidableEq, Repr

def Repeated.message (e : Repeated) : String :=
  "StepDef '" ++ e.template ++ "' declares placeholder <" ++ e.placeholder ++ "> more than once"

/-- Requires the placeholders to differ from each other. -/
def check (template : String) : Except Repeated Unit :=
  match firstRepeat? [] (placeholders template) with
  | some placeholder => .error { template, placeholder }
  | none => .ok ()

/-- The value of a placeholder, or the placeholder itself if it has none. -/
def Segment.fill (params : Pairs) : Segment → List Char
  | literal text => text
  | placeholder name => ((params.get? name).map String.toList).getD (placeholder name).toText

/-- Replaces the placeholders that have a value, all at once. -/
def substitute (template : String) (params : Pairs) : String :=
  String.ofList ((segments template.toList).flatMap (Segment.fill params))

/-- Scans a text left to right. The pending placeholder ends where the next literal first occurs;
one that is followed by another placeholder is empty; a last one takes all that is left. -/
def scan : Option String → List Segment → List Char → Option (List (String × List Char))
  | none, [], [] => some []
  | none, [], _ :: _ => none
  | some name, [], rest => some [(name, rest)]
  | none, .literal text :: ss, s => (Text.afterStart? text s).bind (scan none ss)
  | some name, .literal text :: ss, s =>
    (Text.splitFirst? text s).bind fun (value, rest) =>
      (scan none ss rest).map ((name, value) :: ·)
  | none, .placeholder name :: ss, s => scan (some name) ss s
  | some before, .placeholder name :: ss, s => (scan (some name) ss s).map ((before, []) :: ·)

def toParams (captured : List (String × List Char)) : Pairs :=
  captured.map fun (name, value) => (name, String.ofList value)

/-- Every literal segment occurs somewhere in the text. -/
def literalsOccur (ss : List Segment) (s : List Char) : Bool :=
  ss.all fun
    | .literal text => Text.occurs text s
    | .placeholder _ => true

/-- The values that turn the template into the expression. A template without a placeholder matches
nothing: it is looked up by its whole text instead. -/
def matching (template expression : String) : Except Repeated (Option Pairs) := do
  check template
  let ss := segments template.toList
  if ss.any Segment.isPlaceholder && literalsOccur ss expression.toList then
    match scan none ss expression.toList with
    | none => .ok none
    | some captured =>
      let params := toParams captured
      .ok (if substitute template params == expression then some params else none)
  else .ok none

end Template

end Gherkin
