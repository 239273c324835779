import Gherkin.Proofs.Matching

/-! The tests around the scan. Those before and behind it reject nothing that the scan accepts, and
a template that uses placeholders twice is refused for the one that is the first to come again. -/
namespace Gherkin.Template

variable {template expression name : String} {seen ns : List String}
  {captured : List (String × List Char)}

/-- Among these names, read in order, this is the first that was there before. -/
def RepeatsFirst (name : String) (ns : List String) : Prop :=
  ∃ before after, ns = before ++ name :: after ∧ before.Nodup ∧ name ∈ before

/-- By induction on the names that are left; those that were read count as seen. -/
theorem firstRepeat?_eq_some_iff :
    firstRepeat? seen ns = some name ↔
      ∃ before after, ns = before ++ name :: after ∧ (before.Nodup ∧ ∀ x ∈ before, x ∉ seen) ∧
        (name ∈ seen ∨ name ∈ before) := by
  induction ns generalizing seen with
  | nil => simp [firstRepeat?]
  | cons x ns ih =>
    simp only [firstRepeat?, List.contains_eq_mem, decide_eq_true_eq]
    split
    · next hx =>
      rw [Option.some.injEq]
      constructor
      · rintro rfl
        exact ⟨[], ns, rfl, ⟨List.nodup_nil, by simp⟩, .inl hx⟩
      · rintro ⟨_ | ⟨y, before⟩, after, he, ⟨-, hseen⟩, -⟩
        · exact (List.cons.inj he).1
        · cases he
          exact absurd hx (hseen x List.mem_cons_self)
    · next hx =>
      rw [ih]
      constructor
      · rintro ⟨before, after, rfl, ⟨hd, hseen⟩, hname⟩
        refine ⟨x :: before, after, rfl, ⟨List.nodup_cons.mpr ⟨fun hm => ?_, hd⟩, ?_⟩, ?_⟩
        · exact hseen x hm List.mem_cons_self
        · rw [List.forall_mem_cons]
          exact ⟨hx, fun y hy hm => hseen y hy (List.mem_cons_of_mem x hm)⟩
        · rw [List.mem_cons] at hname ⊢
          tauto
      · rintro ⟨_ | ⟨y, before⟩, after, he, ⟨hd, hseen⟩, hname⟩
        · cases he
          exact absurd hname (by simpa using hx)
        · cases he
          obtain ⟨hm, hd⟩ := List.nodup_cons.mp hd
          refine ⟨before, after, rfl, ⟨hd, fun y hy => ?_⟩, ?_⟩
          · rintro (_ | ⟨_, hs⟩)
            · exact hm hy
            · exact hseen y (List.mem_cons_of_mem x hy) hs
          · rw [List.mem_cons] at hname ⊢
            tauto

theorem exists_repeatsFirst (h : ¬ ns.Nodup) : ∃ name, RepeatsFirst name ns := by
  have hrepeat : firstRepeat? [] ns ≠ none := by simpa [firstRepeat?_eq_none_iff] using h
  obtain ⟨name, hname⟩ := Option.ne_none_iff_exists'.mp hrepeat
  obtain ⟨before, after, he, ⟨hd, -⟩, hm⟩ := firstRepeat?_eq_some_iff.mp hname
  exact ⟨name, before, after, he, hd, hm.resolve_left List.not_mem_nil⟩

theorem check_of_repeatsFirst (h : RepeatsFirst name (placeholders template)) :
    check template = .error { template, placeholder := name } := by
  obtain ⟨before, after, he, hd, hm⟩ := h
  have hrepeat : firstRepeat? [] (placeholders template) = some name :=
    firstRepeat?_eq_some_iff.mpr ⟨before, after, he, ⟨hd, by simp⟩, .inr hm⟩
  rw [check, hrepeat]

theorem matching_of_repeatsFirst (h : RepeatsFirst name (placeholders template)) :
    matching template expression = .error { template, placeholder := name } := by
  rw [matching, check_of_repeatsFirst h]
  rfl

/-- What the scan takes from an expression when nothing is tested before or behind it. -/
def scanned (template expression : String) : Option (List (String × List Char)) :=
  scan none (segments template.toList) expression.toList

/-- What the scan takes has a value for each placeholder, in order, and with them the template is
the expression again. -/
theorem substitute_of_scanned (hd : (placeholders template).Nodup)
    (h : scanned template expression = some captured) :
    (toParams captured).map (·.1) = placeholders template ∧
      substitute template (toParams captured) = expression := by
  obtain ⟨vs, hfits, rfl⟩ := scan_eq_some_iff.mp h
  have hparams : toParams ((names (segments template.toList)).zip vs) =
      (placeholders template).zip (vs.map String.ofList) := toParams_zip _ vs
  have hl : (placeholders template).length = vs.length := hfits.spells.length_eq
  rw [withPending, hparams]
  exact ⟨List.map_fst_zip (by simp [hl]), substitute_of_decomposes hd hfits⟩

/-- If the placeholders differ and there is one, matching and the scan accept the same expressions
and take the same values from them. What the scan accepts has every literal in it, and the values
make the expression again, so neither test ever decides. If some placeholder comes again, nothing
can be matched, for the first that does. -/
theorem matching_decided_by_scan (template expression : String) :
    ((placeholders template).Nodup → placeholders template ≠ [] →
      (∀ params, matching template expression = .ok (some params) ↔
        ∃ captured, scanned template expression = some captured ∧ params = toParams captured) ∧
      (matching template expression = .ok none ↔ scanned template expression = none) ∧
      ∀ captured, scanned template expression = some captured →
        literalsOccur (segments template.toList) expression.toList = true ∧
        (toParams captured).map (·.1) = placeholders template ∧
        substitute template (toParams captured) = expression) ∧
    (¬ (placeholders template).Nodup → ∃ name, RepeatsFirst name (placeholders template)) ∧
    ∀ name, RepeatsFirst name (placeholders template) →
      matching template expression = .error { template, placeholder := name } := by
  refine ⟨fun hd hp => ⟨fun params => ?_, ?_, fun captured h => ⟨?_, substitute_of_scanned hd h⟩⟩,
    exists_repeatsFirst, fun name => matching_of_repeatsFirst⟩
  · rw [matching_eq_scan hd hp, Except.ok.injEq, Option.map_eq_some_iff]
    simp only [scanned, eq_comm]
  · rw [matching_eq_scan hd hp, Except.ok.injEq, Option.map_eq_none_iff, scanned]
  · obtain ⟨vs, hfits, -⟩ := scan_eq_some_iff.mp h
    exact hfits.spells.literalsOccur

/-- A value that looks like a placeholder, and a template whose first placeholder comes again only
behind another one that does. -/
theorem matching_decided_by_scan_greeting :
    matching "say <word> to <whom>" "say <whom> to to ada" =
      .ok (some [("word", "<whom>"), ("whom", "to ada")]) ∧
    substitute "say <word> to <whom>" [("word", "<whom>"), ("whom", "to ada")] =
      "say <whom> to to ada" ∧
    matching "<a> <b> <b> <a>" "1 2 2 1" =
      .error { template := "<a> <b> <b> <a>", placeholder := "b" } := by
  obtain ⟨hmatch, -, hsound⟩ :=
    (matching_decided_by_scan "say <word> to <whom>" "say <whom> to to ada").1
      (by decide +kernel) (by decide +kernel)
  have hscan : scanned "say <word> to <whom>" "say <whom> to to ada" =
      some [("word", "<whom>".toList), ("whom", "to ada".toList)] := by decide +kernel
  obtain ⟨-, -, hsubstitute⟩ := hsound _ hscan
  have hrepeat : RepeatsFirst "b" (placeholders "<a> <b> <b> <a>") :=
    ⟨["a", "b"], ["a"], by decide +kernel, by decide, by decide⟩
  exact ⟨(hmatch _).mpr ⟨_, hscan, rfl⟩, hsubstitute,
    (matching_decided_by_scan "<a> <b> <b> <a>" "1 2 2 1").2.2 "b" hrepeat⟩

end Gherkin.Template
