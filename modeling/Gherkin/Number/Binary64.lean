/-!
Finite binary floating-point numbers of 64 bits, in exact integer arithmetic: rounding a fraction to
the nearest one, and the shortest decimal that rounds back to a given one.
-/

namespace Gherkin

/-- The number `mantissa * 2 ^ exponent`, with a sign that zero has too. The mantissa has 53 bits
unless the exponent is the least one. -/
structure Binary64 where
  negative : Bool := false
  mantissa : Nat
  exponent : Int
deriving DecidableEq, Repr

namespace Binary64

def leastExponent : Int := -1074

def greatestExponent : Int := 971

def zero : Binary64 := { mantissa := 0, exponent := leastExponent }

/-- A fraction `num / den` scaled by a power of two, as numerator and denominator. -/
def shifted (num den : Nat) (e : Int) : Nat × Nat :=
  if e ≥ 0 then (num <<< e.toNat, den) else (num, den <<< (-e).toNat)

/-- The nearest whole number to `num / den`; a half goes to the even neighbour. -/
def roundHalfEven (num den : Nat) : Nat :=
  let q := num / den
  let r := num % den
  if 2 * r > den || (2 * r == den && q % 2 == 1) then q + 1 else q

/-- The nearest number to `num / den`, or `none` beyond the greatest one. -/
def ofRatio? (negative : Bool) (num den : Nat) : Option Binary64 :=
  if num = 0 then some { zero with negative }
  else
    let guess := (Nat.log2 num : Int) - Nat.log2 den - 53
    let (n, d) := shifted num den (-guess)
    let exact := if n / d ≥ 1 <<< 53 then guess + 1 else guess
    let e := max exact leastExponent
    let (n, d) := shifted num den (-e)
    let m := roundHalfEven n d
    let (m, e) := if m = 1 <<< 53 then (1 <<< 52, e + 1) else (m, e)
    if e > greatestExponent then none else some { negative, mantissa := m, exponent := e }

/-- The nearest number to `digits * 10 ^ power`. Powers far out of range are not computed. -/
def ofDecimal? (negative : Bool) (digits : Nat) (power : Int) : Option Binary64 :=
  if digits = 0 || power < -400 - Nat.log2 digits then some { zero with negative }
  else if power > 400 then none
  else if power ≥ 0 then ofRatio? negative (digits * Nat.pow 10 power.toNat) 1
  else ofRatio? negative digits (Nat.pow 10 (-power).toNat)

/-- Numerator and denominator of the absolute value. -/
def ratio (x : Binary64) : Nat × Nat :=
  shifted x.mantissa 1 x.exponent

/-- The product with `10 ^ power`, where the power of ten is itself rounded first. -/
def scale? (x : Binary64) (power : Int) : Option Binary64 := do
  let ten ← ofDecimal? false 1 power.natAbs
  let (n, d) := x.ratio
  let (tn, td) := ten.ratio
  if power ≥ 0 then ofRatio? x.negative (n * tn) (d * td)
  else ofRatio? x.negative (n * td) (d * tn)

/-- Scaling in steps of at most 308 powers of ten, which is as far as the powers themselves go. -/
def scaleStepwise? (x : Binary64) (power : Int) : Option Binary64 :=
  if power ≥ -308 then x.scale? power
  else if power ≥ -616 then (x.scale? (-308)).bind (·.scale? (power + 308))
  else some { zero with negative := x.negative }

/-- Whether `digits * 10 ^ power` rounds to the absolute value of `x`. -/
def readsBack (x : Binary64) (digits : Nat) (power : Int) : Bool :=
  ofDecimal? false digits power == some { x with negative := false }

/-- The neighbours of `x` among the multiples of `10 ^ power` that read back, nearest first. -/
def decimalAt? (x : Binary64) (power : Int) : Option (Nat × Int) :=
  let (n, d) := x.ratio
  let (n, d) := if power ≥ 0 then (n, d * Nat.pow 10 power.toNat) else (n * Nat.pow 10 (-power).toNat, d)
  let below := n / d
  let nearest := roundHalfEven n d
  let other := if nearest = below then below + 1 else below
  if nearest > 0 && x.readsBack nearest power then some (nearest, power)
  else if other > 0 && x.readsBack other power then some (other, power)
  else none

/-- The decimal with the fewest digits that reads back, as digits and power of ten. -/
def shortest (x : Binary64) : Nat × Int :=
  let (n, d) := x.ratio
  let top := ((Nat.log2 n : Int) - Nat.log2 d) * 30103 / 100000 + 2
  let powers := (List.range 22).map fun (i : Nat) => top - (i : Int)
  if x.mantissa = 0 then (0, 0) else (powers.findSome? x.decimalAt?).getD (0, 0)

/-- Which numbers are written without an exponent: those whose decimal point falls past `lowest`
places before the first digit and no more than `highest` places after it. -/
structure Layout where
  lowest : Int
  highest : Int

/-- The digits with a point, or one digit before the point and an exponent with its sign. -/
def render (layout : Layout) (x : Binary64) : String :=
  let (number, power) := x.shortest
  let digits := Nat.toDigits 10 number
  let sign := if x.negative then "-" else ""
  let point : Int := digits.length + power
  let text (cs : List Char) := String.ofList cs
  let zeros (n : Int) := List.replicate n.toNat '0'
  let magnitude :=
    if x.mantissa = 0 then "0.0"
    else if power ≥ 0 && point ≤ layout.highest then text (digits ++ zeros power) ++ ".0"
    else if point > 0 && point ≤ layout.highest then
      text (digits.take point.toNat) ++ "." ++ text (digits.drop point.toNat)
    else if point ≤ 0 && point > layout.lowest then "0." ++ text (zeros (-point) ++ digits)
    else
      let tail := digits.drop 1
      let fraction := if tail.isEmpty then "" else "." ++ text tail
      text (digits.take 1) ++ fraction ++ (if point > 0 then "e+" else "e") ++ toString (point - 1)
  sign ++ magnitude

end Binary64

end Gherkin
