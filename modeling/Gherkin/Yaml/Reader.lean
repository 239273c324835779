import Gherkin.Text.Blank
import Gherkin.Text.Split
import Gherkin.Yaml.Lexer
import Gherkin.Yaml.Merge
import Gherkin.Yaml.Node

/-!
Reading the text of a document. A text holds one document at most; what follows it counts only if it
is the beginning of another one.

`parse?` reads documents in blocks or in brackets, with scalars in quotes or without, comments and
merges. It refuses block scalars, anchors, aliases, tags, directives and `?` keys, which YAML has as
well. Theorems about files hold with any other reader in its place.
-/

namespace Gherkin.Yaml

/-- At most this many collections stand inside one another. -/
def maxDepth : Nat := 2000

/-- Another document begins behind the first one. -/
def opensAnother : List Token → Bool
  | .documentStart :: t :: _ => t.opensNode || t.endsDocument
  | .documentEnd :: r =>
    match r.dropWhile (· == .documentEnd) with
    | .documentStart :: t :: _ => t.opensNode || t.endsDocument
    | t :: _ => t.opensNode
    | [] => false
  | _ => false

/-- Reads the document that these tokens begin with. -/
def readDocument (ts : List Token) : Option (Yaml × List Token) :=
  let fuel := 2 * ts.length + 2
  match ts with
  | .documentStart :: r =>
    if nextIs Token.endsDocument r then some (missing, r)
    else readNode fuel maxDepth true false r
  | _ => readNode fuel maxDepth true false ts

/-- The document of these tokens; `some none` if there is none. -/
def ofTokens? (ts : List Token) : Option (Option Yaml) :=
  match ts.dropWhile (· == .documentEnd) with
  | [.streamEnd] => some none
  | ts => do
    let (y, rest) ← readDocument ts
    guard (rest.head?.any (· != .broken) && !opensAnother rest)
    return some (← y.merge?)

/-- The part of a line before a comment. -/
def beforeComment? (line : List Char) : Option (List Char) :=
  (Text.splitFirst? [' ', '#'] line).or (Text.splitFirst? ['\t', '#'] line) |>.map (·.1)

/-- Words that are neither a key nor an item, in no quotes or brackets. -/
def isBareText (s : List Char) : Bool :=
  match Text.trim s with
  | [] => false
  | c :: cs => !("-?[]\x7b\x7d&*!|>%@,#".toList.contains c) && !(c :: cs).any (":\"'".toList.contains ·)

/-- The line begins at the first column, with neither a comment nor a marker. -/
def beginsAtMargin : List Char → Bool
  | [] => false
  | c :: cs => !Text.isBlank c && c != '#' && !(spots (c :: cs)).atMarker

/-- Bare text may not be broken off by a comment when the next line begins at the margin. -/
def isBrokenOff : List (List Char) → Bool
  | line :: next :: lines =>
    (((beforeComment? line).map isBareText).getD false && beginsAtMargin next) ||
      isBrokenOff (next :: lines)
  | _ => false

/-- Reads a text; `some none` is a text without a document. A byte order mark in front is passed
over. No text may hold two closing brackets with a blank between them, not even in quotes. -/
def parse? (text : String) : Option (Option Yaml) := do
  let cs := text.toList
  let cs := if cs.head? = some (Char.ofNat 0xFEFF) then cs.drop 1 else cs
  guard (!Text.occurs [']', ' ', ']'] cs)
  guard (!isBrokenOff (Text.pieces '\n' cs))
  ofTokens? (tokens (spots cs))

end Gherkin.Yaml
