import Gherkin.Proofs.Escaping
import Gherkin.Proofs.Failures
import Gherkin.Proofs.ImportVisits
import Gherkin.Proofs.MetaForm
import Gherkin.Proofs.QuotedRules

/-! The scenario that binds a data record. Each of its steps is an escaped text that the rule for
binding reads, so every cell arrives in the feature scope as it was written. -/
namespace Gherkin

open EvalM

variable {σ : Type}

namespace Record

/-- A column whose name can be bound: it has no quote and is not blank. -/
def Bindable (name : String) : Prop :=
  '"' ∉ name.toList ∧ ∃ c ∈ name.toList, Text.isBlank c = false

/-- What a column binds: its name without blanks at either end, and the cell as it is. -/
def binding (column : String × String) : String × String :=
  (String.ofList (Text.trim column.1.toList), column.2)

/-- The text that the step of a column stands for. -/
def bindingText (name value : String) : String :=
  name ++ " is \"" ++ value ++ "\""

theorem expression_bindingStep (keyword : Keyword) (name value : String) :
    (bindingStep keyword name value).expression = Reference.escape (bindingText name value) := by
  simp only [bindingText, Reference.escape_append, bindingStep]
  rfl

theorem recognize?_bindingText {name : String} (h : Bindable name) (value : String) :
    Action.recognize? (bindingText name value) = some (.is, binding (name, value)) := by
  refine Action.recognize?_eq_some_iff.mpr ⟨name.toList, ⟨?_, h.1, h.2⟩, rfl⟩
  simp [bindingText, Action.Verb.between, Action.Verb.text]

/-- These steps bind these columns in order. -/
def Binds : List Step → Pairs → Prop :=
  List.Forall₂ fun s column => ∃ keyword, s = bindingStep keyword column.1 column.2

theorem binds_bindingSteps (columns : Pairs) : Binds (bindingSteps columns) columns := by
  cases columns with
  | nil => exact .nil
  | cons column columns =>
    refine .cons ⟨_, rfl⟩ ?_
    rw [List.forall₂_map_left_iff, List.forall₂_same]
    exact fun _ _ => ⟨_, rfl⟩

variable {ctx : Context σ}

/-- A step that binds a column passes and appends one binding. -/
theorem exec_bindingStep {name : String} (h : Bindable name) (value : String) (keyword : Keyword)
    (room : Nat) (hregistry : ctx.registry = {}) (hdry : ctx.options.dryRun = false) :
    ∃ c, exec ((bindingStep keyword name value).evaluate Action.builtin room) ctx =
        (.ok ((bindingStep keyword name value).marked (.passed Duration.zero)), c) ∧
      c.registry = {} ∧ c.options = ctx.options ∧
      c.scopes.feature.bindings = ctx.scopes.feature.bindings ++ [binding (name, value)] := by
  have hliteral : Reference.interpolate ctx.resolve (bindingStep keyword name value).expression =
      .ok (bindingText name value) := by
    rw [expression_bindingStep, Reference.interpolate_escape]
  have hnone : ctx.registry.resolve (bindingText name value) = .ok none := by
    rw [hregistry]
    rfl
  refine ⟨ctx.acted Action.builtin (bindingText name value), ?_, hregistry, rfl, ?_⟩
  · rw [Step.exec_evaluate_literal hliteral rfl hnone, Step.exec_perform, if_neg (by simp [hdry])]
    simp [Action.builtin, Action.byRules, recognize?_bindingText h]
  · simp [Context.acted, Context.note, Action.builtin, Action.byRules, recognize?_bindingText h,
      Scopes.set, Scope.set, binding]

/-- Steps that bind columns all pass, and append one binding for each in order. -/
theorem exec_bindingSteps {ss : List Step} {columns : Pairs} (h : Binds ss columns)
    (hcolumns : ∀ column ∈ columns, Bindable column.1) (room : Nat) (hregistry : ctx.registry = {})
    (hdry : ctx.options.dryRun = false) :
    ∃ c, exec (evaluateSteps (Step.evaluate Action.builtin room) ss) ctx =
        (.ok (ss.map (·.marked (.passed Duration.zero))), c) ∧
      c.scopes.feature.bindings = ctx.scopes.feature.bindings ++ columns.map binding := by
  induction h generalizing ctx with
  | nil => exact ⟨ctx, rfl, by simp⟩
  | @cons s column ss columns hs _ ih =>
    obtain ⟨keyword, rfl⟩ := hs
    obtain ⟨hcolumn, hrest⟩ := List.forall_mem_cons.mp hcolumns
    obtain ⟨c₁, hstep, hregistry₁, hoptions, hbound⟩ :=
      exec_bindingStep hcolumn column.2 keyword room hregistry hdry
    obtain ⟨c, hsteps, hbindings⟩ := ih hrest hregistry₁ (by rw [hoptions, hdry])
    refine ⟨c, ?_, ?_⟩
    · rw [exec_evaluateSteps_cons, hstep]
      simp [Step.marked, Status.isFailed, hsteps, Except.map]
    · simp [hbindings, hbound]

theorem length_of_binds {ss : List Step} {columns : Pairs} (h : Binds ss columns) :
    ss.length = columns.length :=
  List.Forall₂.length_eq h

/-- The binder runs as its steps do. -/
theorem exec_binder (ctx : Context σ) (record : Record)
    (hcolumns : ∀ column ∈ record.columns, Bindable column.1) (hregistry : ctx.registry = {})
    (hdry : ctx.options.dryRun = false) :
    ∃ c, exec (record.binder.evaluate Action.builtin) ctx =
        (.ok (record.binder.marked (.passed Duration.zero)), c) ∧
      c.scopes.feature.bindings = ctx.scopes.feature.bindings ++ record.columns.map binding := by
  obtain ⟨c, hsteps, hbindings⟩ :=
    exec_bindingSteps (binds_bindingSteps record.columns) hcolumns ctx.room hregistry hdry
  refine ⟨c, ?_, hbindings⟩
  have hmarked : record.binder.marked (.passed Duration.zero) =
      { record.binder with
        steps := (bindingSteps record.columns).map (·.marked (.passed Duration.zero)) } := rfl
  rw [Scenario.exec_evaluate, if_neg (by simp [Scenario.isStepDef, binder]),
    if_neg (by simp [Scenario.isIgnored, binder]), hmarked]
  simp only [Scenario.evaluateBody, binder, exec_bind_pure, hsteps]
  rfl

end Record

/-- In a fresh context a record is bound first, and as it is written. Every step of its binder
passes, whatever the cells hold, and then there is one binding for each column, in order; the
scenarios of the feature are evaluated after that. -/
theorem record_bound_verbatim (settings : Settings) (options : Options) (store : AttachmentStore)
    (state : σ) (hdry : options.dryRun = false) {files : FileSystem} {f normal : Feature}
    {record : Record} (himports : f.imports = [])
    (hcolumns : ∀ column ∈ record.columns,
      '"' ∉ column.1.toList ∧ ∃ c ∈ column.1.toList, Text.isBlank c = false)
    (hn : f.normalize files {} (some record) = .ok normal) :
    let ctx : Context σ := { settings, options, store, state }
    ∃ rest bound c, normal.metas = [] ∧ normal.scenarios = record.binder :: rest ∧
      exec (record.binder.evaluate Action.builtin) ctx = (.ok bound, c) ∧
      bound.allSteps.length = record.columns.length ∧
      (∀ s ∈ bound.allSteps, s.status.isPassed = true) ∧
      c.scopes.feature.bindings = record.columns.map (fun (name, value) =>
        (String.ofList (Text.trim name.toList), value)) ∧
      exec (f.run Action.builtin files (some record)) ctx =
        match exec (evaluateScenarios Action.builtin false rest) c with
        | (.error e, c) => (.error e, c)
        | (.ok scenarios, c) =>
          (.ok (normal.result 0 ([], bound :: scenarios) c), normal.concluded c) := by
  intro ctx
  obtain ⟨c, hbinder, hbindings⟩ := Record.exec_binder ctx record hcolumns rfl hdry
  obtain ⟨ms, body, hms, hmetas, -, hnormal⟩ := Feature.normalize_ok hn
  have hmetas : normal.metas = [] := by
    rw [Import.resolve_of_no_imports himports] at hms
    cases hms
    exact List.forall₂_nil_left_iff.mp hmetas
  have hscenarios : normal.scenarios = record.binder :: body.scenarios := by
    rw [hnormal]
    rfl
  have hpassed := marked_status record.binder (.passed Duration.zero)
  have hgo : (record.binder.marked (.passed Duration.zero)).status.isFailed = false := by
    rw [Bool.eq_false_iff, ne_eq, Scenario.status, Status.isFailed_fold]
    rintro ⟨p, hp, hfailed⟩
    rw [hpassed p hp] at hfailed
    cases hfailed
  refine ⟨body.scenarios, _, c, hmetas, hscenarios, hbinder, ?_, ?_, hbindings, ?_⟩
  · have hlength := Record.length_of_binds (Record.binds_bindingSteps record.columns)
    simpa [Scenario.allSteps, Scenario.backgroundSteps, Scenario.marked, Record.binder]
  · intro s hs
    rw [hpassed _ (List.mem_map_of_mem hs)]
    rfl
  · rw [Feature.run, exec_get_bind, hn]
    dsimp only
    rw [Feature.exec_evaluate, Feature.evaluateParts, hmetas, hscenarios]
    simp only [List.mapM_nil, pure_bind, exec_bind_pure, exec_evaluateScenarios_cons,
      Bool.false_and, Bool.false_eq_true, if_false, hbinder, Bool.false_or, hgo]
    rcases exec (evaluateScenarios Action.builtin false body.scenarios) c with
      ⟨_ | scenarios, c'⟩ <;> rfl

/-- A record whose cells look like references, settings and assertions. -/
def people : Record where
  file := "people.csv"
  number := 1
  columns := [(" first name ", "Ada"),
    ("note", "$$5 for $<who> at $\x7bhost\x7d:\n\"a should be \"b\""), ("a should be", "")]

theorem record_bound_verbatim_people :
    ∃ normal rest bound, ∃ c : Context Unit, visit.normalize {} {} (some people) = .ok normal ∧
      normal.scenarios = people.binder :: rest ∧
      exec (people.binder.evaluate Action.builtin) { state := () } = (.ok bound, c) ∧
      bound.allSteps.length = 3 ∧ (∀ s ∈ bound.allSteps, s.status.isPassed = true) ∧
      c.scopes.feature.bindings = [("first name", "Ada"),
        ("note", "$$5 for $<who> at $\x7bhost\x7d:\n\"a should be \"b\""), ("a should be", "")] := by
  have hok : (visit.normalize {} {} (some people)).toOption.isSome = true := by
    decide +kernel
  have hcolumns : ∀ column ∈ people.columns,
      '"' ∉ column.1.toList ∧ ∃ c ∈ column.1.toList, Text.isBlank c = false := by
    have hall : people.columns.all (fun column => !column.1.toList.contains '"' &&
        column.1.toList.any (!Text.isBlank ·)) = true := by
      decide +kernel
    simpa only [List.all_eq_true, Bool.and_eq_true, Bool.not_eq_true', List.any_eq_true,
      List.contains_eq_mem, decide_eq_false_iff_not] using hall
  have hbindings : people.columns.map (fun (name, value) =>
      (String.ofList (Text.trim name.toList), value)) = [("first name", "Ada"),
        ("note", "$$5 for $<who> at $\x7bhost\x7d:\n\"a should be \"b\""), ("a should be", "")] := by
    decide +kernel
  cases hn : visit.normalize {} {} (some people) with
  | error e => simp [hn, Except.toOption] at hok
  | ok normal =>
    obtain ⟨rest, bound, c, -, hscenarios, hbinder, hlength, hpassed, hbound, -⟩ :=
      record_bound_verbatim {} {} {} () rfl rfl hcolumns hn
    exact ⟨normal, rest, bound, c, rfl, hscenarios, hbinder, hlength, hpassed,
      hbound.trans hbindings⟩

end Gherkin
