/-!
A text as a list of characters that know where they stand. Every line end is one character, and
behind the text stands one more spot, which marks the end.
-/

namespace Gherkin.Yaml

structure Spot where
  char : Char
  /-- The number of characters before it. -/
  index : Nat := 0
  line : Nat := 0
  column : Nat := 0
  /-- Nothing but blanks stand before it on its line. -/
  fresh : Bool := true
deriving Inhabited

/-- The character that stands for the end of the text. It ends the text where it occurs in it. -/
def endChar : Char := '\x00'

def isInline (c : Char) : Bool :=
  c == ' ' || c == '\t'

def isBreak (c : Char) : Bool :=
  c == '\n'

def isEnd (c : Char) : Bool :=
  c == endChar

/-- Neither a blank nor a line end nor the end of the text. -/
def isContent (c : Char) : Bool :=
  !(isInline c || isBreak c || isEnd c)

/-- Brackets and the comma, which structure the text between brackets. -/
def isFlowIndicator (c : Char) : Bool :=
  c == ',' || c == '[' || c == ']' || c == '\x7b' || c == '\x7d'

namespace Spot

/-- The spot behind this one on the same line. -/
def next (s : Spot) : Spot :=
  { s with index := s.index + 1, column := s.column + 1, fresh := s.fresh && isInline s.char }

/-- The first spot of the next line, behind a line end of so many characters. -/
def nextLine (s : Spot) (width : Nat) : Spot :=
  { s with index := s.index + width, line := s.line + 1, column := 0, fresh := true }

/-- Gives the characters of a text their places, the first of them that of `s`. -/
def place (s : Spot) : List Char → List Spot
  | [] => [{ s with char := endChar }]
  | '\r' :: '\n' :: cs => { s with char := '\n' } :: (s.nextLine 2).place cs
  | c :: cs =>
    if isEnd c then [{ s with char := endChar }]
    else if c == '\n' || c == '\r' then { s with char := '\n' } :: (s.nextLine 1).place cs
    else { s with char := c } :: ({ s with char := c } : Spot).next.place cs

end Spot

abbrev Spots := List Spot

def spots (cs : List Char) : Spots :=
  ({ char := endChar } : Spot).place cs

namespace Spots

/-- The character so many places ahead. -/
def charAt (n : Nat) (s : Spots) : Char :=
  (s.drop n).head?.elim endChar (·.char)

/-- Three times the same character, and nothing behind it. -/
def isMarker (c : Char) (s : Spots) : Bool :=
  s.charAt 0 == c && s.charAt 1 == c && s.charAt 2 == c && !isContent (s.charAt 3)

/-- The marker before a document. -/
def atStartMarker (s : Spots) : Bool := s.isMarker '-'

/-- The marker behind a document. -/
def atEndMarker (s : Spots) : Bool := s.isMarker '.'

def atMarker (s : Spots) : Bool := s.atStartMarker || s.atEndMarker

/-- From the end of this line on. -/
def lineEnd (s : Spots) : Spots :=
  s.dropWhile fun x => !(isBreak x.char || isEnd x.char)

/-- Nothing follows on this line, or a comment behind a blank. -/
def isBare (s : Spots) : Bool :=
  let c := Spots.charAt 0 (s.dropWhile (isInline ·.char))
  isBreak c || isEnd c || c == '#'

/-- The blanks at the front, and what follows them and the comment behind them. A comment must not
follow without a blank. -/
def skipBlanks? (s : Spots) : Option (List Char × Spots) :=
  let blanks := (s.takeWhile (isInline ·.char)).map (·.char)
  let rest : Spots := s.dropWhile (isInline ·.char)
  if rest.charAt 0 == '#' then
    if blanks.isEmpty then none else some (blanks, rest.lineEnd)
  else some (blanks, rest)

end Spots

end Gherkin.Yaml
