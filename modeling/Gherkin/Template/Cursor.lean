import Gherkin.Template
import Gherkin.Text.Bytes

/-!
Cutting a template into segments in one pass. A cursor keeps the text since the last placeholder and
how many bytes of it have been passed as literal text, and cuts them off at the next placeholder.
-/

namespace Gherkin.Template

structure Cursor where
  /-- What follows the last placeholder. -/
  start : List Char
  /-- How many bytes of `start` have been passed. -/
  passed : Nat := 0
  /-- What has not been looked at. -/
  rest : List Char
  /-- The segments that were cut off. -/
  cut : List Segment := []

/-- The segment of a literal text, if there is any text. -/
def literal (text : List Char) : List Segment :=
  if text.isEmpty then [] else [.literal text]

namespace Cursor

def new (template : List Char) : Cursor :=
  { start := template, rest := template }

/-- Goes behind the next opening bracket, which stands between two texts, or behind the placeholder
that it opens. There is no way on where the bytes passed are not a part of the text. -/
def advance (c : Cursor) (before after : List Char) : Option Cursor :=
  let passed := c.passed + Text.byteSize before
  match name? after with
  | some (name, rest) => do
    let (text, _) ← Text.splitAt? passed c.start
    return {
      start := rest, rest
      cut := c.cut ++ literal text ++ [.placeholder (String.ofList name)] }
  | none => some { c with passed := passed + 1, rest := after }

theorem length_lt_of_advance {c next : Cursor} {before after : List Char}
    (hs : Text.splitFirst? ['<'] c.rest = some (before, after))
    (ha : c.advance before after = some next) : next.rest.length < c.rest.length := by
  have hafter := Text.length_lt_of_splitFirst? hs
  unfold advance at ha
  split at ha
  · next hname =>
    have hrest := length_lt_of_name? hname
    obtain ⟨_, -, ha⟩ := Option.bind_eq_some_iff.mp ha
    cases ha
    exact Nat.lt_trans hrest hafter
  · cases ha
    exact hafter

/-- All segments, once no bracket is left. -/
def run (c : Cursor) : Option (List Segment) :=
  match _hs : Text.splitFirst? ['<'] c.rest with
  | none => some (c.cut ++ literal c.start)
  | some (before, after) =>
    match _ha : c.advance before after with
    | none => none
    | some next => run next
termination_by c.rest.length
decreasing_by exact length_lt_of_advance _hs _ha

end Cursor

def cut? (template : List Char) : Option (List Segment) :=
  (Cursor.new template).run

end Gherkin.Template
