/-!
Elapsed time as a whole number of nanoseconds. The largest duration has 2^64 - 1 whole seconds.
-/

namespace Gherkin

/-- Nanoseconds in a second. -/
def nanosPerSecond : Nat := 1000000000

/-- The first number of nanoseconds that is too large for a duration. -/
def durationLimit : Nat := UInt64.size * nanosPerSecond

structure Duration where
  nanos : Nat
  inRange : nanos < durationLimit
deriving DecidableEq, Repr

namespace Duration

def zero : Duration := ⟨0, by decide⟩

instance : Inhabited Duration := ⟨zero⟩

/-- The duration of `n` nanoseconds, or the largest one if there are too many. -/
def ofNanos (n : Nat) : Duration :=
  if h : n < durationLimit then ⟨n, h⟩ else ⟨durationLimit - 1, by decide⟩

def ofNanos? (n : Nat) : Option Duration :=
  if h : n < durationLimit then some ⟨n, h⟩ else none

def seconds (d : Duration) : Nat :=
  d.nanos / nanosPerSecond

/-- Nanoseconds beyond the whole seconds. -/
def subsecond (d : Duration) : Nat :=
  d.nanos % nanosPerSecond

/-- Nanoseconds of all durations together, without a bound. -/
def total (ds : List Duration) : Nat :=
  ds.foldr (fun d n => d.nanos + n) 0

/-- The sum, stopping at the largest duration. -/
def sum (ds : List Duration) : Duration :=
  ofNanos (total ds)

/-- The sum, if it is a duration. -/
def sum? (ds : List Duration) : Option Duration :=
  ofNanos? (total ds)

/-- The digits of `rest / scale` after the point, without trailing zeros; `scale` is a power of
ten. -/
def fractionDigits (scale rest : Nat) : List Char :=
  let width := (Nat.toDigits 10 scale).length - 1
  let digits := Nat.toDigits 10 rest
  let padded := List.replicate (width - digits.length) '0' ++ digits
  if rest = 0 then [] else (padded.reverse.dropWhile (· == '0')).reverse

/-- The count in a unit of `scale` nanoseconds, exactly. -/
def inUnit (d : Duration) (scale : Nat) (unit : String) : String :=
  let whole := toString (d.nanos / scale)
  match fractionDigits scale (d.nanos % scale) with
  | [] => whole ++ unit
  | digits => whole ++ "." ++ String.ofList digits ++ unit

/-- Written in the largest unit of which there is a whole one. -/
def render (d : Duration) : String :=
  if d.nanos ≥ 1000000000 then d.inUnit 1000000000 "s"
  else if d.nanos ≥ 1000000 then d.inUnit 1000000 "ms"
  else if d.nanos ≥ 1000 then d.inUnit 1000 "µs"
  else d.inUnit 1 "ns"

theorem eq_of_nanos {d e : Duration} (h : d.nanos = e.nanos) : d = e := by
  cases d
  cases e
  cases h
  rfl

theorem sum_eq_of_sum? {ds : List Duration} {d : Duration} (h : sum? ds = some d) : sum ds = d := by
  simp only [sum?, ofNanos?] at h
  split at h
  · next hlt => simpa [sum, ofNanos, hlt] using h
  · simp at h

@[simp] theorem total_nil : total [] = 0 := rfl

@[simp] theorem total_cons (d : Duration) (ds : List Duration) :
    total (d :: ds) = d.nanos + total ds := rfl

theorem total_append (ds es : List Duration) : total (ds ++ es) = total ds + total es := by
  induction ds with
  | nil => simp
  | cons d ds ih => simp [ih, Nat.add_assoc]

theorem sum?_eq_some {ds : List Duration} (h : total ds < durationLimit) :
    sum? ds = some ⟨total ds, h⟩ := by
  rw [sum?, ofNanos?, dif_pos h]

theorem nanos_sum_le (ds : List Duration) : (sum ds).nanos ≤ total ds := by
  unfold sum ofNanos
  split
  · exact Nat.le_refl _
  · next h => exact Nat.le_trans (Nat.sub_le _ _) (Nat.le_of_not_lt h)

end Duration

end Gherkin
