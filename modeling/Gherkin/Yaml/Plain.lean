import Gherkin.Yaml.Spot

/-!
Scalars without quotes, and what a scalar makes of its line ends. A line end inside a scalar counts
as a blank, and one with empty lines below it as that many line ends.
-/

namespace Gherkin.Yaml

/-- What has been read since the last character of a scalar: the text it stands for, backwards, and
whether a line ended in it. -/
structure Gap where
  text : List Char := []
  newline : Bool := false

namespace Gap

/-- Blanks count up to the end of a line and not at the front of the next one. -/
def blank (g : Gap) (c : Char) : Gap :=
  if g.newline then g else { g with text := c :: g.text }

def lineEnd (g : Gap) : Gap :=
  if !g.newline then { text := [' '], newline := true }
  else if g.text == [' '] then { g with text := ['\n'] }
  else { g with text := '\n' :: g.text }

end Gap

namespace Spots

/-- The character at the front may be part of a scalar without quotes. A colon may not before a
blank, nor may the characters of the structure between brackets. -/
def isPlain (inFlow : Bool) (s : Spots) : Bool :=
  let c := s.charAt 0
  let next := s.charAt 1
  if c == ':' then isContent next && !(inFlow && isFlowIndicator next)
  else isContent c && !(inFlow && isFlowIndicator c)

/-- Nothing of a scalar goes on from here: the line stands too far left, a comment begins, or a
document does. -/
def breaksPlain (inFlow started : Bool) (indent : Int) (s : Spots) : Bool :=
  match s with
  | [] => true
  | x :: _ =>
    (started && !inFlow && x.column ≤ indent) || x.char == '#' || (x.fresh && s.atMarker)

/-- Reads on in a scalar, where `indent` is the column of the block around it. What has been read is
`done`, backwards, and `gap`; `inWord` holds right behind a character. -/
def readPlain (inFlow : Bool) (indent : Int) (inWord : Bool) (done : List Char) (gap : Gap) :
    Spots → Option (List Char × Spots)
  | [] => some (done, [])
  | x :: rest =>
    let s : Spots := x :: rest
    let c := x.char
    if isInline c then
      if gap.newline && c == '\t' && x.column ≤ indent && !s.isBare then none
      else readPlain inFlow indent false done (gap.blank c) rest
    else if isBreak c then readPlain inFlow indent false done gap.lineEnd rest
    else if !inWord && s.breaksPlain inFlow (!done.isEmpty) indent then some (done, s)
    else if !inWord && inFlow && c == '-' && isFlowIndicator (charAt 0 rest) then none
    else if s.isPlain inFlow then readPlain inFlow indent true (c :: (gap.text ++ done)) {} rest
    else some (done, s)

/-- Reads a scalar without quotes and leaves what follows it and the blanks behind it. -/
def plain? (inFlow : Bool) (indent : Int) (s : Spots) : Option (String × Spots) := do
  let (done, rest) ← s.readPlain inFlow indent false [] {}
  if done.isEmpty then none else some (String.ofList done.reverse, rest)

end Spots

end Gherkin.Yaml
