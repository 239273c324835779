import Gherkin.Text.Unsigned
import Gherkin.Yaml.Plain

/-!
Scalars in quotes. Between single quotes only the quote itself needs a second one; between double
quotes a backslash begins an escape.
-/

namespace Gherkin.Yaml

/-- The character of that number, if there is one. -/
def charOfNumber? (n : Nat) : Option Char :=
  if n.isValidChar then some (Char.ofNat n) else none

/-- What an escape of one letter stands for. -/
def escape? (c : Char) : Option Char :=
  let table : List (Char × Nat) :=
    [('0', 0), ('a', 7), ('b', 8), ('t', 9), ('\t', 9), ('n', 10), ('v', 11), ('f', 12), ('r', 13),
     ('e', 27), (' ', 32), ('"', 34), ('/', 47), ('\\', 92), ('N', 0x85), ('_', 0xA0),
     ('L', 0x2028), ('P', 0x2029)]
  (table.lookup c).map Char.ofNat

/-- The number of hexadecimal digits behind an escape letter. -/
def escapeWidth? (c : Char) : Option Nat :=
  [('x', 2), ('u', 4), ('U', 8)].lookup c

/-- What the next character belongs to. -/
inductive QuotedPart where
  | text
  /-- Right behind a single quote, which ends the scalar unless another one follows. -/
  | afterQuote
  /-- Right behind a backslash. -/
  | escape
  /-- In the number of an escaped character, with so many digits to come. -/
  | number (digits value : Nat)

namespace Spots

/-- Reads on in a scalar up to its closing quote. What has been read is `done`, backwards, and
`gap`. Its lines must not stand left of `indent`, nor may one look like the end of the document. -/
def readQuoted (single : Bool) (indent : Int) (part : QuotedPart) (done : List Char) (gap : Gap) :
    Spots → Option (List Char × Spots)
  | [] => none
  | x :: rest =>
    let c := x.char
    match part with
    | .afterQuote =>
      if c == '\'' then readQuoted single indent .text ('\'' :: done) {} rest
      else some (done, x :: rest)
    | .escape =>
      if isBreak c then readQuoted single indent .text done { newline := true } rest
      else match escapeWidth? c with
        | some width => readQuoted single indent (.number width 0) done {} rest
        | none => (escape? c).bind fun e => readQuoted single indent .text (e :: done) {} rest
    | .number digits value => (Text.hexDigit? c).bind fun d =>
      let value := 16 * value + d
      if digits > 1 then readQuoted single indent (.number (digits - 1) value) done {} rest
      else (charOfNumber? value).bind fun e => readQuoted single indent .text (e :: done) {} rest
    | .text =>
      let done' := gap.text ++ done
      if isInline c then
        if gap.newline && c == '\t' && x.column < indent then none
        else readQuoted single indent .text done (gap.blank c) rest
      else if isBreak c then readQuoted single indent .text done gap.lineEnd rest
      else if isEnd c then none
      else if gap.newline && (x.column < indent || (x.column = 0 && atMarker (x :: rest))) then none
      else if single then
        if c == '\'' then readQuoted single indent .afterQuote done' {} rest
        else readQuoted single indent .text (c :: done') {} rest
      else if c == '"' then some (done', rest)
      else if c == '\\' then readQuoted single indent .escape done' {} rest
      else readQuoted single indent .text (c :: done') {} rest

/-- Reads the scalar that opens with the quote at the front. -/
def quoted? (indent : Int) : Spots → Option (String × Spots)
  | [] => none
  | x :: rest => (readQuoted (x.char == '\'') indent .text [] {} rest).map fun (done, rest) =>
    (String.ofList done.reverse, rest)

end Spots

end Gherkin.Yaml
