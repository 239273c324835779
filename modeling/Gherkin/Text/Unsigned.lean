/-!
Digits, whole numbers written in decimal, and the 64-bit ones among them.
-/

namespace Gherkin.Text

/-- The value of a decimal digit, or `none` for any other character. -/
def digit? (c : Char) : Option Nat :=
  if c.isDigit then some (c.toNat - 48) else none

/-- The value of a hexadecimal digit in either letter case. -/
def hexDigit? (c : Char) : Option Nat :=
  let n := c.toNat
  if c.isDigit then some (n - 48)
  else if 97 ≤ n && n ≤ 102 then some (n - 87)
  else if 65 ≤ n && n ≤ 70 then some (n - 55)
  else none

/-- Reads a non-empty run of digits that is the whole text. -/
def decimal? : List Char → Option Nat
  | [] => none
  | cs => cs.foldlM (fun n c => (digit? c).map (10 * n + ·)) 0

/-- Reads an optional `+` and digits, if the number fits 64 bits. -/
def unsigned? (s : List Char) : Option UInt64 :=
  let digits := match s with
    | '+' :: rest => rest
    | _ => s
  (decimal? digits).bind fun n => if n < UInt64.size then some (UInt64.ofNat n) else none

/-- Decimal digits of `n`, with zeros in front to fill `width` places. -/
def zeroPadded (width n : Nat) : List Char :=
  let digits := Nat.toDigits 10 n
  List.replicate (width - digits.length) '0' ++ digits

end Gherkin.Text
