import Gherkin.Duration

/-!
Outcomes of steps, scenarios and features. The status of a whole is never stored: it is folded from
the statuses of its parts.
-/

namespace Gherkin

inductive Status where
  | passed (duration : Duration)
  | failed (duration : Duration) (cause : String)
  | skipped
  | pending
  | loaded
deriving DecidableEq, Repr

namespace Status

instance : Inhabited Status := ⟨pending⟩

/-- Zero for a status that carries no duration. -/
def duration : Status → Duration
  | passed d => d
  | failed d _ => d
  | _ => Duration.zero

def cause? : Status → Option String
  | failed _ c => some c
  | _ => none

def isFailed : Status → Bool
  | failed _ _ => true
  | _ => false

def isPassed : Status → Bool
  | passed _ => true
  | _ => false

/-- Only a pending status is not final. -/
def isTerminal : Status → Bool
  | pending => false
  | _ => true

/-- The exit code of a process that ends in this status. -/
def exitCode : Status → Nat
  | passed _ => 0
  | skipped => 0
  | loaded => 0
  | failed _ _ => 1
  | pending => 1

def keyword : Status → String
  | passed _ => "Passed"
  | failed _ _ => "Failed"
  | skipped => "Skipped"
  | pending => "Pending"
  | loaded => "Loaded"

def render : Status → String
  | passed d => "Passed (" ++ d.render ++ ")"
  | failed d c => "Failed (" ++ d.render ++ "): " ++ c
  | s => s.keyword

/-- The first failure decides; without one the last status that is not `loaded` does. Nothing at
all is skipped, and only loaded parts make a loaded whole. -/
def verdict (parts : List Status) (total : Duration) : Status :=
  if parts.isEmpty then skipped
  else
    match parts.findSome? cause? with
    | some c => failed total c
    | none =>
      match (parts.filter (· != loaded)).getLast? with
      | none => loaded
      | some (passed _) => passed total
      | some skipped => skipped
      | some _ => pending

/-- The status of a whole, from the statuses of its parts in order. -/
def fold (parts : List Status) : Status :=
  verdict parts (Duration.sum (parts.map duration))

/-- The fold, unless the durations do not sum to a duration. -/
def fold? (parts : List Status) : Option Status :=
  (Duration.sum? (parts.map duration)).map (verdict parts)

theorem fold_eq_of_fold? {parts : List Status} {s : Status} (h : fold? parts = some s) :
    fold parts = s := by
  simp only [fold?, Option.map_eq_some_iff] at h
  obtain ⟨d, hd, rfl⟩ := h
  rw [fold, Duration.sum_eq_of_sum? hd]

@[simp] theorem fold_nil : fold [] = skipped := rfl

theorem isFailed_iff_cause? {s : Status} : s.isFailed = true ↔ ∃ c, s.cause? = some c := by
  cases s <;> simp [isFailed, cause?]

end Status

end Gherkin
