import Gherkin.Json.Basic
import Gherkin.Text.Unsigned

/-!
Reading a JSON value from its text. A reader takes one form off the front and gives back the rest.
-/

namespace Gherkin.Json

def isSpace (c : Char) : Bool :=
  c == ' ' || c == '\n' || c == '\r' || c == '\t'

def skipSpace (cs : List Char) : List Char :=
  cs.dropWhile isSpace

def hex4? (a b c d : Char) : Option Nat :=
  [a, b, c, d].foldlM (fun n c => (Text.hexDigit? c).map (16 * n + ·)) 0

def isHigh (n : Nat) : Bool := 0xD800 ≤ n && n < 0xDC00

def isLow (n : Nat) : Bool := 0xDC00 ≤ n && n < 0xE000

/-- The character of a pair of surrogates. -/
def joinSurrogates (high low : Nat) : Char :=
  Char.ofNat (0x10000 + (high - 0xD800) * 0x400 + (low - 0xDC00))

def simpleEscape? (c : Char) : Option Char :=
  if c = '"' || c = '\\' || c = '/' then some c
  else if c = 'b' then some (Char.ofNat 8)
  else if c = 'f' then some (Char.ofNat 12)
  else if c = 'n' then some '\n'
  else if c = 'r' then some '\r'
  else if c = 't' then some '\t'
  else none

/-- Reads the rest of a string past its opening quote. -/
def readString : List Char → Option (List Char × List Char)
  | [] => none
  | '"' :: rest => some ([], rest)
  | '\\' :: 'u' :: a :: b :: c :: d :: rest => do
    let n ← hex4? a b c d
    if isHigh n then
      match rest with
      | '\\' :: 'u' :: e :: f :: g :: h :: rest =>
        let low ← hex4? e f g h
        let (s, rest) ← readString rest
        if isLow low then some (joinSurrogates n low :: s, rest) else none
      | _ => none
    else
      let (s, rest) ← readString rest
      if isLow n then none else some (Char.ofNat n :: s, rest)
  | '\\' :: c :: rest => do
    let e ← simpleEscape? c
    let (s, rest) ← readString rest
    some (e :: s, rest)
  | c :: rest => do
    let (s, rest) ← readString rest
    if c.toNat < 32 || c = '\\' then none else some (c :: s, rest)

/-- Takes digits into `n` while they fit 64 bits, and counts those that no longer do. -/
def takeDigits (n : Nat) (lost : Nat) : List Char → Nat × Nat × List Char
  | [] => (n, lost, [])
  | c :: cs =>
    if c.isDigit then
      let next := 10 * n + (c.toNat - 48)
      if lost = 0 && next < UInt64.size then takeDigits next 0 cs else takeDigits n (lost + 1) cs
    else (n, lost, c :: cs)

/-- Reads an exponent behind its `e`. -/
def readExponent? (cs : List Char) : Option (Int × List Char) :=
  let (negative, cs) := match cs with
    | '-' :: r => (true, r)
    | '+' :: r => (false, r)
    | _ => (false, cs)
  let digits := cs.takeWhile Char.isDigit
  let n := digits.foldl (fun n c => 10 * n + (c.toNat - 48)) 0
  if digits.isEmpty then none
  else some (if negative then -(min n 100000 : Nat) else (min n 100000 : Nat), cs.drop digits.length)

/-- A whole number that fits 64 bits stays whole. Any other is the floating-point number of its
leading digits, scaled by one power of ten. -/
def readNumber? (cs : List Char) : Option (Json × List Char) := do
  let (negative, cs) := match cs with
    | '-' :: r => (true, r)
    | _ => (false, cs)
  let whole := cs.takeWhile Char.isDigit
  let (n, lost, cs) := takeDigits 0 0 cs
  if whole.isEmpty || (whole.length > 1 && whole.head? == some '0') then none
  let (n, power, cs, isWhole) ← match cs with
    | '.' :: r =>
      let places := (r.takeWhile Char.isDigit).length
      let (m, dropped, rest) := takeDigits n lost r
      let kept := if lost = 0 then (places - dropped : Nat) else 0
      if places = 0 then none else some (m, (lost : Int) - (kept : Int), rest, false)
    | _ => some (n, (lost : Int), cs, decide (lost = 0))
  let (power, cs, isWhole) ← match cs with
    | 'e' :: r => (readExponent? r).map fun (e, r) => (power + e, r, false)
    | 'E' :: r => (readExponent? r).map fun (e, r) => (power + e, r, false)
    | _ => some (power, cs, isWhole)
  if isWhole && !negative then some (int n, cs)
  else if isWhole && 0 < n && n ≤ UInt64.size / 2 then some (int (-(n : Int)), cs)
  else do
    let start ← Binary64.ofDecimal? negative n 0
    let scaled ←
      if n = 0 || power = 0 then some start
      else if power > 308 then none
      else start.scaleStepwise? power
    some (float scaled, cs)

mutual

/-- Reads a value; the first argument bounds the depth. -/
def readValue : Nat → List Char → Option (Json × List Char)
  | 0, _ => none
  | depth + 1, cs =>
    match skipSpace cs with
    | '"' :: r => (readString r).map fun (s, rest) => (str (String.ofList s), rest)
    | '[' :: r =>
      match skipSpace r with
      | ']' :: rest => some (arr [], rest)
      | r => (readItems depth r).map fun (vs, rest) => (arr vs, rest)
    | '\x7b' :: r =>
      match skipSpace r with
      | '\x7d' :: rest => some (obj [], rest)
      | r => (readFields depth r).map fun (fs, rest) => (obj fs, rest)
    | 't' :: 'r' :: 'u' :: 'e' :: rest => some (bool true, rest)
    | 'f' :: 'a' :: 'l' :: 's' :: 'e' :: rest => some (bool false, rest)
    | 'n' :: 'u' :: 'l' :: 'l' :: rest => some (null, rest)
    | cs => readNumber? cs

/-- Reads the items of an array up to its closing bracket. -/
def readItems : Nat → List Char → Option (List Json × List Char)
  | 0, _ => none
  | depth + 1, cs => do
    let (v, rest) ← readValue depth cs
    match skipSpace rest with
    | ',' :: r => (readItems depth r).map fun (vs, rest) => (v :: vs, rest)
    | ']' :: r => some ([v], r)
    | _ => none

/-- Reads the fields of an object up to its closing brace. -/
def readFields : Nat → List Char → Option (List (String × Json) × List Char)
  | 0, _ => none
  | depth + 1, cs =>
    match skipSpace cs with
    | '"' :: r => do
      let (k, rest) ← readString r
      match skipSpace rest with
      | ':' :: r => do
        let (v, rest) ← readValue depth r
        match skipSpace rest with
        | ',' :: r => (readFields depth r).map fun (fs, rest) => ((String.ofList k, v) :: fs, rest)
        | '\x7d' :: r => some ([(String.ofList k, v)], r)
        | _ => none
      | _ => none
    | _ => none

end

/-- Reads a text that is one value with nothing but space around it. -/
def parse? (text : String) : Option Json := do
  let cs := text.toList
  let (v, rest) ← readValue (cs.length + 1) cs
  if (skipSpace rest).isEmpty then some v else none

end Gherkin.Json
