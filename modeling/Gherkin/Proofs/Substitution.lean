import Gherkin.Proofs.TagText
import Gherkin.Template

/-! How placeholders are replaced. The text is read once, from left to right. A value is not read
again, and what opens no placeholder is copied. -/
namespace Gherkin.Template

variable {name rest s t : List Char} {params : Pairs}

/-- What may stand between the brackets of a placeholder: a text without brackets that is not empty
and has no blank at either end. -/
structure Nameable (name : List Char) : Prop where
  nonempty : name ≠ []
  noOpening : '<' ∉ name
  noClosing : '>' ∉ name
  head : ∀ c ∈ name.head?, Text.isBlank c = false
  last : ∀ c ∈ name.getLast?, Text.isBlank c = false

theorem nameable_iff : Nameable name ↔ isName name = true ∧ '>' ∉ name := by
  simp only [isName, Bool.and_eq_true, Bool.not_eq_true', List.isEmpty_eq_false_iff,
    List.contains_eq_mem, decide_eq_false_iff_not, beq_iff_eq]
  constructor
  · intro h
    exact ⟨⟨⟨h.nonempty, h.noOpening⟩, Text.trim_eq_self h.head h.last⟩, h.noClosing⟩
  · rintro ⟨⟨⟨hne, hopening⟩, htrim⟩, hclosing⟩
    exact ⟨hne, hopening, hclosing, fun c hc => Text.isBlank_head?_trim (htrim.symm ▸ hc),
      fun c hc => Text.isBlank_getLast?_trim (htrim.symm ▸ hc)⟩

theorem name?_eq_some_iff :
    name? s = some (name, rest) ↔ s = name ++ '>' :: rest ∧ Nameable name := by
  rw [nameable_iff]
  constructor
  · intro h
    unfold name? at h
    split at h
    · next hsplit =>
      split at h
      · next hname =>
        cases h
        obtain ⟨he, hclosing⟩ := Text.splitFirst?_singleton_eq_some.mp hsplit
        exact ⟨he, hname, hclosing⟩
      · cases h
    · cases h
  · rintro ⟨he, hname, hclosing⟩
    rw [name?, Text.splitFirst?_singleton_eq_some.mpr ⟨he, hclosing⟩]
    simp only [hname, if_true]

/-- The text opens with a placeholder. -/
def Opens (s : List Char) : Prop :=
  ∃ name rest, Nameable name ∧ s = '<' :: (name ++ '>' :: rest)

theorem segments_placeholder (h : Nameable name) (rest : List Char) :
    segments ('<' :: (name ++ '>' :: rest)) =
      .placeholder (String.ofList name) :: segments rest := by
  have hname : name? (name ++ '>' :: rest) = some (name, rest) := name?_eq_some_iff.mpr ⟨rfl, h⟩
  rw [segments, if_pos rfl]
  split
  · next hsome =>
    cases hname.symm.trans hsome
    rfl
  · next hnone => cases hname.symm.trans hnone

theorem segments_cons {c : Char} (h : ¬ Opens (c :: s)) :
    segments (c :: s) = consLiteral c (segments s) := by
  rw [segments]
  split
  · next hc =>
    split
    · next name rest hsome =>
      obtain ⟨rfl, hname⟩ := name?_eq_some_iff.mp hsome
      exact absurd ⟨name, rest, hname, hc ▸ rfl⟩ h
    · rfl
  · rfl

theorem flatMap_consLiteral (params : Pairs) (c : Char) (ss : List Segment) :
    (consLiteral c ss).flatMap (Segment.fill params) = c :: ss.flatMap (Segment.fill params) := by
  rcases ss with _ | ⟨_ | _, ss⟩ <;> rfl

/-- One pass over a text. A placeholder with a value gives way to it, one without stands for itself,
and any other character is copied. -/
inductive Replaced (value? : String → Option String) : List Char → List Char → Prop where
  | nil : Replaced value? [] []
  | copied {c : Char} {s t : List Char} : ¬ Opens (c :: s) → Replaced value? s t →
      Replaced value? (c :: s) (c :: t)
  | unknown {name s t : List Char} : Nameable name → value? (String.ofList name) = none →
      Replaced value? s t →
      Replaced value? ('<' :: (name ++ '>' :: s)) ('<' :: (name ++ '>' :: t))
  | known {name s t : List Char} {value : String} : Nameable name →
      value? (String.ofList name) = some value → Replaced value? s t →
      Replaced value? ('<' :: (name ++ '>' :: s)) (value.toList ++ t)

theorem replaced_segments (params : Pairs) (s : List Char) :
    Replaced params.get? s ((segments s).flatMap (Segment.fill params)) := by
  fun_induction segments s with
  | case1 => exact .nil
  | case2 s name rest hsome ih =>
    obtain ⟨rfl, hname⟩ := name?_eq_some_iff.mp hsome
    rw [List.flatMap_cons]
    cases hv : params.get? (String.ofList name) with
    | none => simpa [Segment.fill, Segment.toText, hv] using Replaced.unknown hname hv ih
    | some value => simpa [Segment.fill, hv] using Replaced.known hname hv ih
  | case3 s hnone ih =>
    rw [flatMap_consLiteral]
    refine .copied ?_ ih
    rintro ⟨name, rest, hname, he⟩
    cases (name?_eq_some_iff.mpr ⟨(List.cons.inj he).2, hname⟩).symm.trans hnone
  | case4 c s hc ih =>
    rw [flatMap_consLiteral]
    refine .copied ?_ ih
    rintro ⟨name, rest, -, he⟩
    exact hc (List.cons.inj he).1

/-- One pass has one outcome. -/
theorem replaced_iff :
    Replaced params.get? s t ↔ t = (segments s).flatMap (Segment.fill params) := by
  refine ⟨fun h => ?_, fun h => h ▸ replaced_segments params s⟩
  induction h with
  | nil => simp [segments]
  | copied hc _ ih => rw [segments_cons hc, flatMap_consLiteral, ih]
  | unknown hname hv _ ih => simp [segments_placeholder hname, Segment.fill, Segment.toText, hv, ih]
  | known hname hv _ ih => simp [segments_placeholder hname, Segment.fill, hv, ih]

/-- One text is the other with its placeholders replaced in one pass. -/
def Replaces (value? : String → Option String) (s t : String) : Prop :=
  Replaced value? s.toList t.toList

theorem replaces_iff {s t : String} : Replaces params.get? s t ↔ t = substitute s params := by
  rw [Replaces, replaced_iff, substitute, ← String.toList_inj, String.toList_ofList]

example : substitute "<a> <b> <c>" [("a", "<b>"), ("b", "2"), ("a", "3")] = "<b> 2 <c>" := by
  decide +kernel

end Gherkin.Template
