/-!
Cutting a text at a given separator: at its beginning, at its end, or around the first occurrence.
-/

namespace Gherkin.Text

/-- What follows `start`, when the text begins with it. -/
def afterStart? : (start s : List Char) → Option (List Char)
  | [], s => some s
  | _ :: _, [] => none
  | p :: ps, c :: s => if p = c then afterStart? ps s else none

/-- What precedes `ending`, when the text ends with it. -/
def beforeEnd? (ending s : List Char) : Option (List Char) :=
  (afterStart? ending.reverse s.reverse).map List.reverse

/-- The two sides of the first occurrence of `sep`. -/
def splitFirst? (sep : List Char) : List Char → Option (List Char × List Char)
  | [] => (afterStart? sep []).map ([], ·)
  | c :: s =>
    match afterStart? sep (c :: s) with
    | some rest => some ([], rest)
    | none => (splitFirst? sep s).map fun (before, rest) => (c :: before, rest)

/-- No occurrence of `sep` in `before ++ sep` begins earlier than the one at its end. -/
def EndsAtFirst (sep before : List Char) : Prop :=
  ∀ u w, before ++ sep = u ++ sep ++ w → before.length ≤ u.length

/-- Some occurrence of `sep` lies in the text. -/
def occurs (sep s : List Char) : Bool :=
  (splitFirst? sep s).isSome

/-- The pieces of a text between the occurrences of one character; never an empty list. -/
def pieces (sep : Char) : List Char → List (List Char)
  | [] => [[]]
  | c :: s =>
    if c = sep then [] :: pieces sep s
    else
      match pieces sep s with
      | [] => [[c]]
      | p :: ps => (c :: p) :: ps

theorem afterStart?_append (start s : List Char) : afterStart? start (start ++ s) = some s := by
  induction start with
  | nil => rfl
  | cons p ps ih => simp [afterStart?, ih]

theorem eq_append_of_afterStart? {start s rest : List Char} (h : afterStart? start s = some rest) :
    s = start ++ rest := by
  induction start generalizing s with
  | nil => simpa [afterStart?] using h
  | cons p ps ih =>
    cases s with
    | nil => simp [afterStart?] at h
    | cons c s =>
      simp only [afterStart?] at h
      split at h
      · next hpc => simp [hpc, ih h]
      · simp at h

theorem afterStart?_eq_some_iff {start s rest : List Char} :
    afterStart? start s = some rest ↔ s = start ++ rest :=
  ⟨eq_append_of_afterStart?, fun h => h ▸ afterStart?_append start rest⟩

theorem beforeEnd?_eq_some_iff {ending s rest : List Char} :
    beforeEnd? ending s = some rest ↔ s = rest ++ ending := by
  rw [beforeEnd?, Option.map_eq_some_iff]
  constructor
  · rintro ⟨u, hu, rfl⟩
    have := eq_append_of_afterStart? hu
    simpa using congrArg List.reverse this
  · rintro rfl
    exact ⟨rest.reverse, by simp [afterStart?_append], by simp⟩

theorem endsAtFirst_nil (sep : List Char) : EndsAtFirst sep [] := fun _ _ _ => Nat.zero_le _

/-- What stands behind does not matter: an occurrence that begins earlier also ends earlier. -/
theorem EndsAtFirst.le {sep before rest u w : List Char} (h : EndsAtFirst sep before)
    (he : before ++ sep ++ rest = u ++ sep ++ w) : before.length ≤ u.length := by
  by_cases hle : before.length ≤ u.length
  · exact hle
  · have hp : u ++ sep <+: before ++ sep :=
      List.prefix_of_prefix_length_le ⟨w, he.symm⟩ ⟨rest, rfl⟩ (by simp; omega)
    obtain ⟨v, hv⟩ := hp
    exact h u v hv.symm

/-- An occurrence that ends in a character which stands nowhere before is the first. -/
theorem endsAtFirst_concat {s before : List Char} {c : Char} (hs : c ∉ s) (hb : c ∉ before) :
    EndsAtFirst (s ++ [c]) before := by
  intro u w he
  refine Nat.le_of_not_lt fun hlt => ?_
  have hp : u ++ s ++ [c] <+: before ++ s :=
    List.prefix_of_prefix_length_le ⟨w, by simp [he]⟩ ⟨[c], List.append_assoc _ _ _⟩
      (by simp; omega)
  have hc : c ∈ before ++ s := hp.subset (by simp)
  exact (List.mem_append.mp hc).elim hb hs

theorem endsAtFirst_cons_iff {sep before : List Char} {c : Char} :
    EndsAtFirst sep (c :: before) ↔
      EndsAtFirst sep before ∧ ¬ sep <+: c :: before ++ sep := by
  constructor
  · refine fun h => ⟨fun u w he => ?_, fun ⟨w, hw⟩ => ?_⟩
    · have := h (c :: u) w (by simpa using he)
      simpa using this
    · have := h [] w (by simpa using hw.symm)
      simp at this
  · rintro ⟨h, hp⟩ u w he
    cases u with
    | nil => exact absurd ⟨w, by simpa using he.symm⟩ hp
    | cons d u =>
      simp only [List.cons_append, List.cons.injEq] at he
      have := h u w he.2
      simpa using this

theorem afterStart?_eq_none_iff {start s : List Char} :
    afterStart? start s = none ↔ ¬ start <+: s := by
  rw [Option.eq_none_iff_forall_ne_some]
  constructor
  · rintro h ⟨rest, rfl⟩
    exact h rest (afterStart?_append start rest)
  · rintro h rest hr
    exact h ⟨rest, (eq_append_of_afterStart? hr).symm⟩

theorem splitFirst?_eq_some_iff {sep s before rest : List Char} :
    splitFirst? sep s = some (before, rest) ↔
      s = before ++ sep ++ rest ∧ EndsAtFirst sep before := by
  induction s generalizing before with
  | nil =>
    simp only [splitFirst?, Option.map_eq_some_iff, Prod.mk.injEq, afterStart?_eq_some_iff]
    constructor
    · rintro ⟨_, hr, rfl, rfl⟩
      exact ⟨hr, endsAtFirst_nil sep⟩
    · rintro ⟨he, -⟩
      simp only [List.nil_eq, List.append_eq_nil_iff] at he
      obtain ⟨⟨rfl, rfl⟩, rfl⟩ := he
      exact ⟨[], rfl, rfl, rfl⟩
  | cons c s ih =>
    simp only [splitFirst?]
    split
    · next r hr =>
      have hr := eq_append_of_afterStart? hr
      simp only [Option.some.injEq, Prod.mk.injEq]
      constructor
      · rintro ⟨rfl, rfl⟩
        exact ⟨hr, endsAtFirst_nil sep⟩
      · rintro ⟨he, hf⟩
        have hle := hf.le (u := []) (w := r) (by rw [← he, hr]; rfl)
        obtain rfl : before = [] := List.eq_nil_of_length_eq_zero (by simpa using hle)
        exact ⟨rfl, List.append_cancel_left (hr.symm.trans he)⟩
    · next hn =>
      rw [afterStart?_eq_none_iff] at hn
      simp only [Option.map_eq_some_iff, Prod.mk.injEq, Prod.exists]
      constructor
      · rintro ⟨b, r, hr, rfl, rfl⟩
        obtain ⟨rfl, hf⟩ := ih.mp hr
        refine ⟨by simp, endsAtFirst_cons_iff.mpr ⟨hf, fun hp => hn (hp.trans ?_)⟩⟩
        exact ⟨r, by simp⟩
      · rintro ⟨he, hf⟩
        cases before with
        | nil => exact absurd ⟨rest, by simpa using he.symm⟩ hn
        | cons d b =>
          simp only [List.cons_append, List.cons.injEq] at he
          obtain ⟨rfl, he⟩ := he
          exact ⟨b, rest, ih.mpr ⟨he, (endsAtFirst_cons_iff.mp hf).1⟩, rfl, rfl⟩

theorem eq_append_of_splitFirst? {sep s before rest : List Char}
    (h : splitFirst? sep s = some (before, rest)) : s = before ++ sep ++ rest :=
  (splitFirst?_eq_some_iff.mp h).1

theorem length_lt_of_splitFirst? {c : Char} {s before rest : List Char}
    (h : splitFirst? [c] s = some (before, rest)) : rest.length < s.length := by
  rw [eq_append_of_splitFirst? h, List.append_assoc, List.length_append, List.singleton_append,
    List.length_cons]
  omega

theorem splitFirst?_eq_none_iff {sep s : List Char} :
    splitFirst? sep s = none ↔ ¬ sep <:+: s := by
  induction s with
  | nil => simp [splitFirst?, afterStart?_eq_none_iff]
  | cons c s ih =>
    rw [List.infix_cons_iff, not_or, ← ih, ← afterStart?_eq_none_iff, splitFirst?]
    cases afterStart? sep (c :: s) <;> simp

theorem occurs_iff {sep s : List Char} : occurs sep s = true ↔ sep <:+: s := by
  rw [occurs, Option.isSome_iff_ne_none, ne_eq, splitFirst?_eq_none_iff,
    Classical.not_not]

theorem pieces_ne_nil (sep : Char) (s : List Char) : pieces sep s ≠ [] := by
  cases s with
  | nil => simp [pieces]
  | cons c s =>
    rw [pieces]
    split
    · simp
    · split <;> simp

theorem not_mem_of_mem_pieces {sep : Char} {s piece : List Char} (h : piece ∈ pieces sep s) :
    sep ∉ piece := by
  induction s generalizing piece with
  | nil => simp_all [pieces]
  | cons c s ih =>
    rw [pieces] at h
    split at h
    · rcases List.mem_cons.mp h with rfl | h
      · simp
      · exact ih h
    · next hc =>
      split at h
      · next hp => exact absurd hp (pieces_ne_nil sep s)
      · next hp =>
        rw [hp] at ih
        rcases List.mem_cons.mp h with rfl | h
        · simp [ih List.mem_cons_self, Ne.symm hc]
        · exact ih (List.mem_cons_of_mem _ h)

theorem pieces_of_not_mem {sep : Char} {s : List Char} (h : sep ∉ s) : pieces sep s = [s] := by
  induction s with
  | nil => rfl
  | cons c s ih =>
    rw [List.mem_cons, not_or] at h
    rw [pieces, if_neg (Ne.symm h.1), ih h.2]

theorem pieces_append (sep : Char) (s t : List Char) :
    pieces sep (s ++ sep :: t) = pieces sep s ++ pieces sep t := by
  induction s with
  | nil => simp [pieces]
  | cons c s ih =>
    rw [List.cons_append, pieces, pieces, ih]
    split
    · rfl
    · cases hs : pieces sep s with
      | nil => exact absurd hs (pieces_ne_nil sep s)
      | cons p ps => rfl

/-- Pieces joined again are the same pieces. -/
theorem pieces_intercalate {sep : Char} {ps : List (List Char)} (hne : ps ≠ [])
    (h : ∀ p ∈ ps, sep ∉ p) : pieces sep ([sep].intercalate ps) = ps := by
  induction ps with
  | nil => exact absurd rfl hne
  | cons p ps ih =>
    obtain ⟨hp, hps⟩ := List.forall_mem_cons.mp h
    cases ps with
    | nil => simpa using pieces_of_not_mem hp
    | cons q ps =>
      rw [List.intercalate_cons_cons, List.append_assoc, List.singleton_append, pieces_append,
        pieces_of_not_mem hp, ih (List.cons_ne_nil q ps) hps, List.singleton_append]

end Gherkin.Text
