import Gherkin.Action
import Gherkin.Text.Blank
import Mathlib.Data.List.TakeWhile

/-! The texts that the built-in rules recognise: a name, a verb and a value in quotes. The first quote
of the text ends the verb, so there is one way to read it and the order of the rules is of no
consequence. -/
namespace Gherkin

namespace Text

variable {c : Char} {s : List Char}

theorem mem_of_mem_trim (h : c ∈ trim s) : c ∈ s := by
  rw [trim, trimEnd, List.mem_reverse] at h
  have h := (List.dropWhile_sublist isBlank).subset h
  exact (List.dropWhile_sublist isBlank).subset (List.mem_reverse.mp h)

theorem mem_dropWhile_of_mem {p : Char → Bool} (hp : p c = false) (h : c ∈ s) :
    c ∈ s.dropWhile p := by
  rw [← List.takeWhile_append_dropWhile (p := p) (l := s)] at h
  refine (List.mem_append.mp h).resolve_left fun ht => ?_
  simp [List.mem_takeWhile_imp ht] at hp

/-- Trimming takes away blanks and nothing else. -/
theorem mem_trim_of_mem (hc : isBlank c = false) (h : c ∈ s) : c ∈ trim s := by
  rw [trim, trimEnd, List.mem_reverse]
  exact mem_dropWhile_of_mem hc (List.mem_reverse.mpr (mem_dropWhile_of_mem hc h))

theorem trim_eq_nil_iff : trim s = [] ↔ ∀ c ∈ s, isBlank c = true := by
  constructor
  · intro h c hm
    rw [← Bool.not_eq_false]
    intro hc
    simpa [h] using mem_trim_of_mem hc hm
  · intro h
    rw [trim, trimStart, List.dropWhile_eq_nil_iff.mpr h, trimEnd_nil]

end Text

namespace Action

variable {verb verb' : Verb} {e : String} {before before' value value' : List Char}

/-- What stands between a name and the quote in front of a value. -/
def Verb.between (verb : Verb) : List Char := (" " ++ verb.text ++ " ").toList

/-- The expression is `name verb "value"`, where the name has no quote and is not blank. -/
structure Verb.Reads (verb : Verb) (e : String) (before value : List Char) : Prop where
  text : e.toList = before ++ verb.between ++ '"' :: (value ++ ['"'])
  unquoted : '"' ∉ before
  named : ∃ c ∈ before, Text.isBlank c = false

theorem Verb.not_mem_between (verb : Verb) : '"' ∉ verb.between := by
  cases verb <;> decide

theorem Verb.eq_of_suffix (h : verb.between <:+ verb'.between) : verb = verb' := by
  revert h
  cases verb <;> cases verb' <;> decide

/-- The first quote ends the verb. -/
theorem Verb.Reads.splitFirst? (h : verb.Reads e before value) :
    Text.splitFirst? ['"'] e.toList = some (before ++ verb.between, value ++ ['"']) := by
  refine Text.splitFirst?_eq_some_iff.mpr ⟨by simp [h.text], ?_⟩
  exact Text.endsAtFirst_concat List.not_mem_nil (by simp [h.unquoted, verb.not_mem_between])

/-- There is one way to read an expression. -/
theorem Verb.Reads.unique (h : verb.Reads e before value) (h' : verb'.Reads e before' value') :
    verb = verb' ∧ before = before' ∧ value = value' := by
  have hsplit := h.splitFirst?.symm.trans h'.splitFirst?
  simp only [Option.some.injEq, Prod.mk.injEq, List.append_cancel_right_eq] at hsplit
  obtain ⟨hinit, rfl⟩ := hsplit
  have hsuffix : verb.between <:+ before' ++ verb'.between := ⟨before, hinit⟩
  have hverb : verb = verb' := by
    rcases List.suffix_or_suffix_of_suffix hsuffix (List.suffix_append before' verb'.between)
      with hs | hs
    · exact Verb.eq_of_suffix hs
    · exact (Verb.eq_of_suffix hs).symm
  subst hverb
  exact ⟨rfl, List.append_cancel_right hinit, rfl⟩

/-- A rule reads exactly the expressions of its verb. -/
theorem quoted?_eq_some_iff {name value : String} :
    quoted? e verb = some (name, value) ↔
      ∃ before, verb.Reads e before value.toList ∧ name = String.ofList (Text.trim before) := by
  have hsep : (" " ++ verb.text ++ " \"").toList = verb.between ++ ['"'] := by
    cases verb <;> rfl
  simp only [quoted?, Option.bind_eq_bind, Option.bind_eq_some_iff, Text.beforeEnd?_eq_some_iff,
    Prod.exists, Text.splitFirst?_eq_some_iff, hsep]
  constructor
  · rintro ⟨body, htext, before, rest, ⟨rfl, -⟩, h⟩
    split at h
    · cases h
    · next hname =>
      simp only [Bool.or_eq_true, List.isEmpty_iff, List.contains_iff_mem, not_or,
        Text.trim_eq_nil_iff, not_forall, Bool.not_eq_true, exists_prop] at hname
      cases h
      exact ⟨before, ⟨by simpa using htext, fun hm => hname.2 (Text.mem_trim_of_mem (by decide) hm),
        hname.1⟩, rfl⟩
  · rintro ⟨before, h, rfl⟩
    obtain ⟨c, hm, hc⟩ := h.named
    have hnone : Text.trim before ≠ [] := List.ne_nil_of_mem (Text.mem_trim_of_mem hc hm)
    have hquote : '"' ∉ Text.trim before := fun hq => h.unquoted (Text.mem_of_mem_trim hq)
    refine ⟨before ++ (verb.between ++ ['"']) ++ value.toList, by simp [h.text], before,
      value.toList, ⟨rfl, Text.endsAtFirst_concat verb.not_mem_between h.unquoted⟩, ?_⟩
    simp [hnone, hquote]

/-- An expression is recognised as the rule of its verb reads it, since no other rule does. -/
theorem recognize?_eq_some_iff {name value : String} :
    recognize? e = some (verb, name, value) ↔
      ∃ before, verb.Reads e before value.toList ∧ name = String.ofList (Text.trim before) := by
  have hrule : ∀ {v : Verb} {found}, (quoted? e v).map (v, ·) = some found →
      found.1 = v ∧ quoted? e v = some found.2 := by
    intro v found hv
    obtain ⟨pair, hpair, rfl⟩ := Option.map_eq_some_iff.mp hv
    exact ⟨rfl, hpair⟩
  rw [← quoted?_eq_some_iff, recognize?]
  constructor
  · intro h
    obtain ⟨v, -, hv⟩ := List.exists_of_findSome?_eq_some h
    obtain ⟨rfl, hread⟩ := hrule hv
    exact hread
  · intro h
    have hsome : (Verb.all.findSome? fun v => (quoted? e v).map (v, ·)).isSome = true :=
      List.findSome?_isSome_iff.mpr ⟨verb, by cases verb <;> decide, by simp [h]⟩
    obtain ⟨⟨v', name', value'⟩, hfound⟩ := Option.isSome_iff_exists.mp hsome
    obtain ⟨v, -, hv⟩ := List.exists_of_findSome?_eq_some hfound
    obtain ⟨rfl, hread⟩ := hrule hv
    obtain ⟨before, hr, -⟩ := quoted?_eq_some_iff.mp h
    obtain ⟨before', hr', -⟩ := quoted?_eq_some_iff.mp hread
    obtain ⟨rfl, -⟩ := hr.unique hr'
    rw [hfound, Option.some.inj (h.symm.trans hread)]

end Action

end Gherkin
