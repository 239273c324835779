import Gherkin.Proofs.Interpolation

/-! Escaped text stands for itself. In front of any other text it adds its own characters to what
interpolation makes of the other, and no reference begins in it. -/
namespace Gherkin.Reference

theorem escapeChars_append (s t : List Char) :
    escapeChars (s ++ t) = escapeChars s ++ escapeChars t :=
  List.flatMap_append

theorem toList_escape (text : String) : (escape text).toList = escapeChars text.toList :=
  String.toList_ofList

theorem escape_append (s t : String) : escape (s ++ t) = escape s ++ escape t := by
  simp [escape, escapeChars_append]

theorem tokens_escapeChars_append (s t : List Char) :
    tokens (escapeChars s ++ t) = s.map .char ++ tokens t := by
  induction s with
  | nil => rfl
  | cons c s ih =>
    rw [escapeChars, List.flatMap_cons, ← escapeChars, List.append_assoc, List.map_cons,
      List.cons_append, ← ih]
    split
    · next hc =>
      rw [hc]
      exact tokens_pair _
    · next hc => exact tokens_char hc _

section

variable {m : Type → Type} [Monad m] [LawfulMonad m] (resolve : Reference → m (Option String))

/-- Escaped text asks for nothing. -/
theorem interpolateM_escape_append (s t : String) :
    interpolateM resolve (escape s ++ t) = Except.map (s ++ ·) <$> interpolateM resolve t := by
  have happend : String.ofList ∘ (s.toList ++ ·) = (s ++ ·) ∘ String.ofList := by
    funext u
    simp
  rw [interpolateM_eq_fill, interpolateM_eq_fill, String.toList_append, toList_escape,
    tokens_escapeChars_append, fill_chars_append, map_map_outcome, map_map_outcome, happend]

theorem interpolateM_escape (text : String) :
    interpolateM resolve (escape text) = pure (.ok text) := by
  have hempty : interpolateM resolve "" = pure (.ok "") := by
    rw [interpolateM_eq_fill, String.toList_empty, tokens.eq_1, fill, map_pure]
    rfl
  rw [← String.append_empty (s := escape text), interpolateM_escape_append, hempty, map_pure,
    Except.map, String.append_empty]

end

theorem interpolate_escape (resolve : Reference → Option String) (text : String) :
    interpolate resolve (escape text) = .ok text := by
  rw [interpolate, interpolateM_escape]
  rfl

theorem among_escape_append (s t : String) : among (escape s ++ t) = among t := by
  have hnone : s.toList.filterMap (Token.reference? ∘ Token.char) = [] :=
    List.filterMap_eq_nil_iff.mpr fun _ _ => rfl
  rw [among, String.toList_append, toList_escape, tokens_escapeChars_append, List.filterMap_append,
    List.filterMap_map, hnone, List.nil_append, among]

/-- Escaped text is inert in front of any other, also where a dollar sign stands at the end of the
one or the beginning of the other. Whatever supplies the values is asked for the references of the
other text as if that stood alone; an error is the same, and any other outcome has the text that was
escaped in front. -/
theorem escape_inert (s t : String) :
    escape (s ++ t) = escape s ++ escape t ∧ among (escape s ++ t) = among t ∧
      (∀ (m : Type → Type) [Monad m] [LawfulMonad m] (resolve : Reference → m (Option String)),
        interpolateM resolve (escape s ++ t) = Except.map (s ++ ·) <$> interpolateM resolve t ∧
        interpolateM resolve (escape s) = pure (.ok s)) ∧
      ∀ resolve : Reference → Option String,
        interpolate resolve (escape s ++ t) = (interpolate resolve t).map (s ++ ·) ∧
        interpolate resolve (escape s) = .ok s := by
  refine ⟨escape_append s t, among_escape_append s t, fun m _ _ resolve => ?_, fun resolve => ?_⟩
  · exact ⟨interpolateM_escape_append resolve s t, interpolateM_escape resolve s⟩
  · refine ⟨?_, interpolate_escape resolve s⟩
    rw [interpolate, interpolateM_escape_append, Id.run_map]
    rfl

/-- Between the dollar sign that was escaped and that of the reference nothing stands. -/
theorem escape_inert_price :
    let resolve : Reference → StateM (List Reference) (Option String) := fun r asked =>
      (some "$<n>", asked ++ [r])
    escape "5$" = "5$$" ∧
      (interpolateM resolve (escape "5$" ++ "$<n>")).run [] = (.ok "5$$<n>", [.bound "n"]) := by
  intro resolve
  have hrun : Id.run ((interpolateM resolve "$<n>").run []) = (.ok "$<n>", [.bound "n"]) := by
    decide +kernel
  obtain ⟨-, -, hinert, -⟩ := escape_inert "5$" "$<n>"
  refine ⟨by decide +kernel, ?_⟩
  rw [(hinert (StateM (List Reference)) resolve).1, StateT.run_map]
  exact congrArg (fun p => (p.1.map ("5$" ++ ·), p.2)) hrun

end Gherkin.Reference
