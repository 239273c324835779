import Gherkin.Proofs.QuotedRules

/-! The built-in rules as a table that is tried from the top. At most one of them recognises a text,
so the order of the table does not matter, and what one rule binds the others find. -/
namespace Gherkin.Action

variable {σ : Type} {verb verb' : Verb} {e name : String} {before value : List Char}
  {settings : Settings} {scopes : Scopes}

/-- What the rule of a verb does with the name and the value that it read. -/
def Verb.act (verb : Verb) (name value : String) (settings : Settings) (scopes : Scopes) :
    Except ActionError Unit × Scopes :=
  match verb with
  | .is => (.ok (), scopes.set Scope.featureName name value)
  | .shouldBe => (Action.shouldBe scopes settings name value, scopes)
  | .shouldNotBe => (Action.shouldNotBe scopes settings name value, scopes)

/-- What the rule of a verb comes to, if it recognises the expression. -/
def Verb.rule? (verb : Verb) (e : String) (settings : Settings) (scopes : Scopes) :
    Option (Except ActionError Unit × Scopes) :=
  (quoted? e verb).map fun (name, value) => verb.act name value settings scopes

/-- Performs an expression by the first rule of a table that recognises it. -/
def byTable (table : List Verb) (e : String) (settings : Settings) (scopes : Scopes) :
    Except ActionError Unit × Scopes :=
  (table.findSome? (·.rule? e settings scopes)).getD (.error (.undefined e), scopes)

theorem quoted?_of_reads (h : verb.Reads e before value) :
    quoted? e verb = some (String.ofList (Text.trim before), String.ofList value) := by
  refine quoted?_eq_some_iff.mpr ⟨before, ?_, rfl⟩
  rwa [String.toList_ofList]

theorem exists_reads (h : (quoted? e verb).isSome = true) :
    ∃ before value, verb.Reads e before value := by
  obtain ⟨⟨name, value⟩, h⟩ := Option.isSome_iff_exists.mp h
  obtain ⟨before, h, -⟩ := quoted?_eq_some_iff.mp h
  exact ⟨before, _, h⟩

/-- No two rules recognise one expression. -/
theorem eq_of_quoted? (h : (quoted? e verb).isSome = true) (h' : (quoted? e verb').isSome = true) :
    verb = verb' := by
  obtain ⟨_, _, h⟩ := exists_reads h
  obtain ⟨_, _, h'⟩ := exists_reads h'
  exact (h.unique h').1

theorem recognize?_of_reads (h : verb.Reads e before value) :
    recognize? e = some (verb, String.ofList (Text.trim before), String.ofList value) := by
  refine recognize?_eq_some_iff.mpr ⟨before, ?_, rfl⟩
  rwa [String.toList_ofList]

theorem byRules_eq (e : String) (settings : Settings) (scopes : Scopes) :
    byRules e settings scopes =
      match recognize? e with
      | none => (.error (.undefined e), scopes)
      | some (verb, name, value) => verb.act name value settings scopes := by
  unfold byRules
  rcases recognize? e with _ | ⟨_ | _ | _, name, value⟩ <;> rfl

theorem byRules_of_reads (h : verb.Reads e before value) :
    byRules e settings scopes =
      verb.act (String.ofList (Text.trim before)) (String.ofList value) settings scopes := by
  rw [byRules_eq, recognize?_of_reads h]

theorem byRules_of_not_reads (h : ∀ verb before value, ¬ Verb.Reads verb e before value) :
    byRules e settings scopes = (.error (.undefined e), scopes) := by
  rw [byRules_eq]
  rcases hr : recognize? e with _ | ⟨verb, name, value⟩
  · rfl
  · obtain ⟨before, hread, -⟩ := recognize?_eq_some_iff.mp hr
    exact absurd hread (h verb before _)

/-- The rules may be tried in any order. -/
theorem byTable_eq_byRules {table : List Verb} (hall : ∀ verb, verb ∈ table) :
    byTable table e settings scopes = byRules e settings scopes := by
  rcases hfirst : table.findSome? (·.rule? e settings scopes) with _ | done
  · rw [byTable, hfirst, Option.getD_none, byRules_of_not_reads]
    intro verb before value h
    have hnone := List.findSome?_eq_none_iff.mp hfirst verb (hall verb)
    rw [Verb.rule?, quoted?_of_reads h] at hnone
    cases hnone
  · obtain ⟨verb, -, hverb⟩ := List.exists_of_findSome?_eq_some hfirst
    obtain ⟨⟨name, value⟩, hq, rfl⟩ := Option.map_eq_some_iff.mp hverb
    obtain ⟨before, h, rfl⟩ := quoted?_eq_some_iff.mp hq
    rw [byTable, hfirst, Option.getD_some, byRules_of_reads h, String.ofList_toList]

/-- A rule that recognises an expression does not call it undefined. -/
theorem Verb.act_ne_undefined (verb : Verb) (name value text : String) :
    (verb.act name value settings scopes).1 ≠ .error (.undefined text) := by
  cases verb with
  | is => simp [act]
  | shouldBe =>
    simp only [act, Action.shouldBe]
    split
    · simp
    · split <;> simp
  | shouldNotBe =>
    simp only [act, Action.shouldNotBe]
    split <;> simp

theorem builtin_eq (e : String) (settings : Settings) (scopes : Scopes) (state : σ) :
    builtin e settings scopes state =
      { result := (byRules e settings scopes).1, scopes := (byRules e settings scopes).2, state } :=
  rfl

/-- At most one rule recognises an expression, so the order of the table is irrelevant. An
expression is defined exactly if it is a name, a verb and a value in quotes, where the name has no
quote and is not blank. There is one way to read it so: the verb selects the rule, the name is taken
without the blanks at either end and the value as it is. -/
theorem builtin_rules_unambiguous (e : String) :
    (∀ verb verb', (quoted? e verb).isSome = true → (quoted? e verb').isSome = true →
      verb = verb') ∧
    (∀ table : List Verb, table.Perm Verb.all → ∀ settings scopes,
      byTable table e settings scopes = byRules e settings scopes) ∧
    (∀ settings scopes (state : σ),
      (∀ text, (builtin e settings scopes state).result ≠ .error (.undefined text)) ↔
        ∃ verb before value, Verb.Reads verb e before value) ∧
    ∀ verb before value, Verb.Reads verb e before value →
      (∀ verb' before' value', Verb.Reads verb' e before' value' →
        verb' = verb ∧ before' = before ∧ value' = value) ∧
      recognize? e = some (verb, String.ofList (Text.trim before), String.ofList value) ∧
      ∀ settings scopes, byRules e settings scopes =
        verb.act (String.ofList (Text.trim before)) (String.ofList value) settings scopes := by
  refine ⟨fun _ _ => eq_of_quoted?, fun table hperm settings scopes => ?_,
    fun settings scopes state => ⟨fun hdefined => ?_, ?_⟩, fun verb before value h => ?_⟩
  · exact byTable_eq_byRules fun verb => hperm.mem_iff.mpr (by cases verb <;> decide)
  · by_contra hnone
    refine hdefined e ?_
    rw [builtin_eq, byRules_of_not_reads fun verb before value h => hnone ⟨verb, before, value, h⟩]
  · rintro ⟨verb, before, value, h⟩ text
    rw [builtin_eq, byRules_of_reads h]
    exact verb.act_ne_undefined _ _ text
  · exact ⟨fun _ _ _ h' => h'.unique h, recognize?_of_reads h, fun _ _ => byRules_of_reads h⟩

/-- The verb of another rule stands in the name and, with a quote after it, in the value. -/
theorem builtin_rules_unambiguous_nested :
    let e := "what is it should not be \"he is \"gone\"\""
    Verb.Reads .shouldNotBe e "what is it".toList "he is \"gone\"".toList ∧
      recognize? e = some (.shouldNotBe, "what is it", "he is \"gone\"") ∧
      byTable [.is, .shouldBe, .shouldNotBe] e {} {} = byRules e {} {} := by
  intro e
  have h : Verb.Reads .shouldNotBe e "what is it".toList "he is \"gone\"".toList :=
    ⟨by decide, by decide, 'w', by decide, by decide⟩
  obtain ⟨-, htable, -, hreads⟩ := @builtin_rules_unambiguous Unit e
  exact ⟨h, (hreads _ _ _ h).2.1, htable _ (by decide) {} {}⟩

/-- A name as steps give it: without blanks at either end, not empty and without a quote. -/
structure IsName (name : String) : Prop where
  trimmed : Text.trim name.toList = name.toList
  nonempty : name ≠ ""
  unquoted : '"' ∉ name.toList

/-- The text that the rule of a verb reads as this name and value. -/
def Verb.sentence (verb : Verb) (name value : String) : String :=
  name ++ " " ++ verb.text ++ " \"" ++ value ++ "\""

/-- Some scope or the settings have a value for the name. -/
def Bound (scopes : Scopes) (settings : Settings) (name : String) : Prop :=
  (∃ scope ∈ scopes.all, ∃ value, (name, value) ∈ scope.bindings) ∨
    ∃ value, (name, value) ∈ settings.entries

theorem IsName.reads (h : IsName name) (verb : Verb) (value : String) :
    verb.Reads (verb.sentence name value) name.toList value.toList where
  text := by simp [Verb.sentence, Verb.between]
  unquoted := h.unquoted
  named := by
    by_contra hnone
    simp only [not_exists, not_and, Bool.not_eq_false] at hnone
    refine h.nonempty (String.toList_eq_nil_iff.mp ?_)
    rw [← h.trimmed, Text.trim_eq_nil_iff.mpr hnone]

/-- Only the verb decides what becomes of a name and a value. -/
theorem builtin_sentence (h : IsName name) (verb : Verb) (value : String) (settings : Settings)
    (scopes : Scopes) (state : σ) :
    builtin (verb.sentence name value) settings scopes state =
      { result := (verb.act name value settings scopes).1
        scopes := (verb.act name value settings scopes).2
        state } := by
  rw [builtin_eq, byRules_of_reads (h.reads verb value), h.trimmed, String.ofList_toList,
    String.ofList_toList]

example : (builtin "first name is \"say \"hi\"\"" {} {} ()).scopes.get? "first name" =
    some "say \"hi\"" := by decide +kernel

theorem bound_iff : Bound scopes settings name ↔
    ∃ value, lookUp? scopes settings name = some value := by
  rw [← Option.isSome_iff_exists, Option.isSome_iff_ne_none, ne_eq, lookUp?, Option.or_eq_none_iff,
    Scopes.get?_eq_none_iff, Settings.get?, Pairs.get?_eq_none_iff]
  simp only [Bound, not_and_or, not_forall, not_not, exists_prop]

theorem lookUp_eq_ok_iff {value : String} :
    lookUp scopes settings name = .ok value ↔ lookUp? scopes settings name = some value := by
  unfold lookUp
  cases lookUp? scopes settings name <;> simp

theorem lookUp_eq_error (h : lookUp? scopes settings name = none) :
    lookUp scopes settings name = .error { name } := by
  rw [lookUp, h]
  rfl

theorem shouldBe_eq_ok_iff {expected : String} : shouldBe scopes settings name expected = .ok () ↔
    lookUp? scopes settings name = some expected := by
  rw [← lookUp_eq_ok_iff, shouldBe]
  cases lookUp scopes settings name with
  | error fault => simp
  | ok actual => by_cases ha : actual = expected <;> simp [ha]

theorem shouldNotBe_eq_ok_iff {unexpected : String} :
    shouldNotBe scopes settings name unexpected = .ok () ↔
      lookUp? scopes settings name ≠ some unexpected := by
  rw [shouldNotBe]
  by_cases h : lookUp? scopes settings name = some unexpected <;> simp [h]

/-- A name that no open scope binds has the value that was bound last in the feature scope. -/
theorem lookUp?_set (hopen : ∀ scope ∈ scopes.opened, ∀ value, (name, value) ∉ scope.bindings)
    (value : String) :
    lookUp? (scopes.set Scope.featureName name value) settings name = some value := by
  have hnone : scopes.opened.findSome? (·.get? name) = none :=
    List.findSome?_eq_none_iff.mpr fun scope hs => Scope.get?_eq_none_iff.mpr (hopen scope hs)
  rw [lookUp?, Scopes.get?_eq_or]
  simp [Scopes.set, hnone, Scope.get?_set]

/-- Binding and asserting agree. Binding succeeds and adds one binding to the feature scope, and
asserting changes nothing. Of the two assertions exactly one holds of a name that is bound, the
positive one for the value that is looked up; a name that is not bound fails the positive one as
unbound and passes the other. After a name was bound that no open scope binds, it has the value that
was bound. -/
theorem asserting_agrees_with_binding (h : IsName name) (v w : String) (settings : Settings)
    (scopes : Scopes) (state : σ) :
    let perform (verb : Verb) (value : String) (scopes : Scopes) : Performed σ :=
      builtin (verb.sentence name value) settings scopes state
    perform .is v scopes =
      { result := .ok ()
        scopes := { scopes with feature := { scopes.feature with
          bindings := scopes.feature.bindings ++ [(name, v)] } }
        state } ∧
    (∀ verb, verb ≠ .is → (perform verb w scopes).scopes = scopes ∧
      (perform verb w scopes).state = state) ∧
    (Bound scopes settings name → ∃ value, lookUp scopes settings name = .ok value ∧
      Xor ((perform .shouldBe w scopes).result = .ok ())
        ((perform .shouldNotBe w scopes).result = .ok ()) ∧
      ((perform .shouldBe w scopes).result = .ok () ↔ value = w)) ∧
    (¬ Bound scopes settings name →
      (perform .shouldBe w scopes).result = .error (.unbound { name }) ∧
      (perform .shouldNotBe w scopes).result = .ok ()) ∧
    ((∀ scope ∈ scopes.opened, ∀ value, (name, value) ∉ scope.bindings) →
      ((perform .shouldBe w (perform .is v scopes).scopes).result = .ok () ↔ w = v)) := by
  intro perform
  have hact : ∀ verb value scopes, perform verb value scopes =
      { result := (verb.act name value settings scopes).1
        scopes := (verb.act name value settings scopes).2
        state } :=
    fun verb value scopes => builtin_sentence h verb value settings scopes state
  have hbe : ∀ scopes, (perform .shouldBe w scopes).result = .ok () ↔
      lookUp? scopes settings name = some w := fun scopes => by
    rw [hact]
    exact shouldBe_eq_ok_iff
  have hnot : (perform .shouldNotBe w scopes).result = .ok () ↔
      lookUp? scopes settings name ≠ some w := by
    rw [hact]
    exact shouldNotBe_eq_ok_iff
  refine ⟨hact .is v scopes, fun verb hverb => ?_, fun hbound => ?_, fun hbound => ?_,
    fun hopen => ?_⟩
  · rw [hact]
    cases verb with
    | is => exact absurd rfl hverb
    | shouldBe => exact ⟨rfl, rfl⟩
    | shouldNotBe => exact ⟨rfl, rfl⟩
  · obtain ⟨value, hvalue⟩ := bound_iff.mp hbound
    refine ⟨value, lookUp_eq_ok_iff.mpr hvalue, ?_, ?_⟩
    · rw [hbe, hnot]
      exact xor_not_right.mpr Iff.rfl
    · rw [hbe, hvalue, Option.some.injEq]
  · have hnone : lookUp? scopes settings name = none :=
      Option.eq_none_iff_forall_ne_some.mpr fun value hv => hbound (bound_iff.mpr ⟨value, hv⟩)
    refine ⟨?_, hnot.mpr (by simp [hnone])⟩
    rw [hact, Verb.act, shouldBe, lookUp_eq_error hnone]
  · rw [hbe, hact .is, Verb.act, lookUp?_set hopen, Option.some.injEq, eq_comm]

/-- A parameter and an older name. -/
def clerk : Scopes where
  opened := [{ name := Scope.stepDefName, bindings := [("who", "ada")] }]
  feature := { name := Scope.featureName, bindings := [("first name", "ada")] }

theorem asserting_agrees_with_binding_clerk :
    let perform (verb : Verb) (name value : String) (scopes : Scopes) : Performed Unit :=
      builtin (verb.sentence name value) {} scopes ()
    (perform .shouldBe "first name" "say \"hi\""
        (perform .is "first name" "say \"hi\"" clerk).scopes).result = .ok () ∧
      (∃ value, lookUp clerk {} "first name" = .ok value ∧
        ((perform .shouldBe "first name" "say \"hi\"" clerk).result = .ok () ↔
          value = "say \"hi\"")) ∧
      (perform .shouldNotBe "age" "36" clerk).result = .ok () := by
  have hname : IsName "first name" := ⟨by decide, by decide, by decide⟩
  have hage : IsName "age" := ⟨by decide, by decide, by decide⟩
  obtain ⟨-, -, hbound, -, hopen⟩ :=
    asserting_agrees_with_binding hname "say \"hi\"" "say \"hi\"" {} clerk ()
  obtain ⟨-, -, -, hunbound, -⟩ := asserting_agrees_with_binding hage "" "36" {} clerk ()
  refine ⟨(hopen ?_).mpr rfl, ?_, (hunbound ?_).2⟩
  · simp [clerk]
  · obtain ⟨value, hvalue, -, hiff⟩ := hbound (.inl ⟨clerk.feature, by simp [Scopes.all], "ada",
      by simp [clerk]⟩)
    exact ⟨value, hvalue, hiff⟩
  · simp [Bound, clerk, Scopes.all]

end Gherkin.Action
