import Gherkin.Json.Basic
import Gherkin.Text.Blank
import Gherkin.Text.Unsigned
import Gherkin.Yaml.Basic

/-!
What a scalar means besides its text: a truth value, a whole number, a number with a point or an
exponent. Blanks around it do not matter for that.
-/

namespace Gherkin.Yaml

def lowered (s : String) : List Char :=
  (Text.trim s.toList).map Char.toLower

/-- Truth values have four spellings each, in any letter case. -/
def truth? (s : String) : Option Bool :=
  let word := String.ofList (lowered s)
  if ["true", "yes", "y", "on"].contains word then some true
  else if ["false", "no", "n", "off"].contains word then some false
  else none

/-- The sign of a number and what follows it. -/
def splitSign : List Char → Bool × List Char
  | '-' :: cs => (true, cs)
  | '+' :: cs => (false, cs)
  | cs => (false, cs)

/-- The base that a number announces, and its digits. -/
def splitBase : List Char → Nat × List Char
  | '0' :: 'x' :: cs => (16, cs)
  | '0' :: 'X' :: cs => (16, cs)
  | '0' :: 'o' :: cs => (8, cs)
  | '0' :: 'O' :: cs => (8, cs)
  | '0' :: 'b' :: cs => (2, cs)
  | '0' :: 'B' :: cs => (2, cs)
  | cs => (10, cs)

/-- Digits of a base with underscores anywhere between them. -/
def digitsIn? (base : Nat) (cs : List Char) : Option Nat :=
  let digits := cs.filter (· != '_')
  if digits.isEmpty then none
  else digits.foldlM (fun n c => ((Text.hexDigit? c).filter (· < base)).map (base * n + ·)) 0

/-- A whole number that fits 64 bits, with a sign only if it needs one. -/
def wholeNumber? (s : String) : Option Int := do
  let (negative, cs) := splitSign (Text.trim s.toList)
  let (base, digits) := splitBase cs
  let n ← digitsIn? base digits
  if negative then if n ≤ UInt64.size / 2 then some (-(n : Int)) else none
  else if n < UInt64.size then some n else none

/-- A whole number without a minus. -/
def count? (s : String) : Option Nat :=
  if (Text.trim s.toList).head? = some '-' then none else (wholeNumber? s).map Int.toNat

/-- A decimal number, perhaps with a point or an exponent: its digits and power of ten. -/
def decimal? (cs : List Char) : Option (Nat × Int) := do
  let whole := cs.takeWhile Char.isDigit
  let rest := cs.drop whole.length
  let (fraction, rest) := match rest with
    | '.' :: r => (r.takeWhile Char.isDigit, r.dropWhile Char.isDigit)
    | _ => ([], rest)
  let digits ← Text.decimal? (whole ++ fraction)
  let places : Int := fraction.length
  match rest with
  | [] => some (digits, -places)
  | e :: r =>
    if e = 'e' || e = 'E' then
      let (negative, power) := splitSign r
      let n ← Text.decimal? power
      some (digits, (if negative then -(n : Int) else n) - places)
    else none

def infinity (negative : Bool) : Json :=
  .str (if negative then "-.inf" else ".inf")

/-- A number as the nearest one of floating point. Those that have no place there, because they are
infinite, too large or no numbers, are written out. -/
def float? (s : String) : Option Json := do
  let (negative, cs) := splitSign (lowered s)
  let word := String.ofList cs
  if [".inf", "inf", "infinity"].contains word then some (infinity negative)
  else if [".nan", "nan"].contains word then some (.str ".nan")
  else do
    let (digits, power) ← decimal? cs
    some (((Binary64.ofDecimal? negative digits power).map .float).getD (infinity negative))

/-- What a scalar stands for where anything may stand. -/
def Scalar.toJson (s : Scalar) : Json :=
  if !s.plain then .str s.text
  else match truth? s.text with
    | some b => .bool b
    | none => match wholeNumber? s.text with
      | some n => .int n
      | none => (float? s.text).getD (.str s.text)

mutual

/-- The document as a JSON value, with the meaning of each scalar. -/
def toJson : Yaml → Json
  | scalar s => s.toJson
  | seq items => .arr (itemsToJson items)
  | map entries => .obj (entriesToJson entries)

def itemsToJson : List Yaml → List Json
  | [] => []
  | y :: ys => toJson y :: itemsToJson ys

def entriesToJson : List (Scalar × Yaml) → List (String × Json)
  | [] => []
  | (k, y) :: es => (k.text, toJson y) :: entriesToJson es

end

end Gherkin.Yaml
