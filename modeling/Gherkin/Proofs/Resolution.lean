import Gherkin.Proofs.RegistryHistory

/-! How an expression finds its step definition, in every registry that any history leaves. -/
namespace Gherkin

/-- The values that a template takes from an expression, if it matches. -/
def Template.values? (template expression : String) : Option Pairs :=
  match matching template expression with
  | .ok found => found
  | .error _ => none

/-- Only a template that uses a placeholder twice cannot be matched at all. -/
theorem Template.matching_of_check {template : String} (h : check template = .ok ())
    (expression : String) : matching template expression = .ok (values? template expression) := by
  have hok : ∃ found, matching template expression = .ok found := by
    simp only [matching, h, bind, Except.bind]
    split
    · split <;> exact ⟨_, rfl⟩
    · exact ⟨_, rfl⟩
  obtain ⟨found, hf⟩ := hok
  simp only [values?, hf]

namespace Registry

variable {r r' : Registry} {found : Resolved} {expression : String}

/-- The step definitions whose templates match, in order, with the values of their placeholders. -/
def candidates (expression : String) (ss : List Scenario) : List Resolved :=
  ss.filterMap fun s => (Template.values? s.name expression).map ({ stepDef := s, params := · })

theorem matching_eq (expression : String) {ss : List Scenario}
    (h : ∀ s ∈ ss, Template.check s.name = .ok ()) :
    matching expression ss = .ok (candidates expression ss) := by
  induction ss with
  | nil => rfl
  | cons s ss ih =>
    obtain ⟨hs, hss⟩ := List.forall_mem_cons.mp h
    simp only [matching, Template.matching_of_check hs, ih hss]
    cases hv : Template.values? s.name expression <;> simp [candidates, hv] <;> rfl

theorem WellFormed.matching_eq (h : WellFormed r) (expression : String) :
    matching expression r.stepDefs = .ok (candidates expression r.stepDefs) :=
  Registry.matching_eq expression fun s hs =>
    (h.admissible s.name (mem_names.mpr ⟨s, hs, rfl⟩)).distinct

/-- The names of the candidates are the names that match. -/
theorem names_candidates (expression : String) (ss : List Scenario) :
    (candidates expression ss).map (·.stepDef.name) =
      (ss.map (·.name)).filter fun name => (Template.values? name expression).isSome := by
  induction ss with
  | nil => rfl
  | cons s ss ih =>
    cases hv : Template.values? s.name expression <;> simp_all [candidates]

theorem mem_candidates {ss : List Scenario} :
    found ∈ candidates expression ss ↔
      found.stepDef ∈ ss ∧ Template.values? found.stepDef.name expression = some found.params := by
  simp only [candidates, List.mem_filterMap, Option.map_eq_some_iff]
  constructor
  · rintro ⟨s, hs, params, hv, rfl⟩
    exact ⟨hs, hv⟩
  · rintro ⟨hs, hv⟩
    exact ⟨found.stepDef, hs, found.params, hv, rfl⟩

theorem resolve_of_registered {s : Scenario} (h : r.get? expression = some s) :
    r.resolve expression = .ok (some { stepDef := s, params := [] }) := by
  simp only [resolve, h]

/-- Without an exact name the candidates decide. -/
theorem resolve_of_unregistered (h : WellFormed r) (hn : r.get? expression = none) :
    r.resolve expression = match candidates expression r.stepDefs with
      | [] => .ok none
      | [found] => .ok (some found)
      | several => .error (.ambiguous expression (several.map (·.stepDef.name))) := by
  simp only [resolve, hn, h.matching_eq]
  rcases candidates expression r.stepDefs with _ | ⟨_, _ | _⟩ <;> rfl

/-- Without an exact name an expression is ambiguous exactly if several templates match it. -/
theorem resolve_eq_error_iff (h : WellFormed r) (hn : r.get? expression = none)
    {fault : StepDefError} :
    r.resolve expression = .error fault ↔
      fault = .ambiguous expression ((candidates expression r.stepDefs).map (·.stepDef.name)) ∧
        2 ≤ (candidates expression r.stepDefs).length := by
  rw [resolve_of_unregistered h hn]
  rcases candidates expression r.stepDefs with _ | ⟨c, _ | ⟨d, cs⟩⟩
  · simp
  · simp
  · simp [eq_comm]

theorem resolve_eq_none_iff (h : WellFormed r) (hn : r.get? expression = none) :
    r.resolve expression = .ok none ↔ candidates expression r.stepDefs = [] := by
  rw [resolve_of_unregistered h hn]
  rcases candidates expression r.stepDefs with _ | ⟨c, _ | ⟨d, cs⟩⟩ <;> simp

theorem resolve_eq_some_iff (h : WellFormed r) (hn : r.get? expression = none) :
    r.resolve expression = .ok (some found) ↔ candidates expression r.stepDefs = [found] := by
  rw [resolve_of_unregistered h hn]
  rcases candidates expression r.stepDefs with _ | ⟨c, _ | ⟨d, cs⟩⟩ <;> simp

theorem resolve_ne_repeated (h : WellFormed r) (expression : String) (fault : Template.Repeated) :
    r.resolve expression ≠ .error (.repeated fault) := by
  intro he
  cases hg : r.get? expression with
  | some s =>
    rw [resolve_of_registered hg] at he
    cases he
  | none =>
    have hf := ((resolve_eq_error_iff h hg).mp he).1
    cases hf

/-- Two outcomes that differ at most in the order in which candidates are named. -/
inductive SameOutcome : Except StepDefError (Option Resolved) →
    Except StepDefError (Option Resolved) → Prop where
  | resolved (found : Option Resolved) : SameOutcome (.ok found) (.ok found)
  | ambiguous (expression : String) {names names' : List String} (h : names.Perm names') :
      SameOutcome (.error (.ambiguous expression names)) (.error (.ambiguous expression names'))

/-- What an expression finds depends on what is registered under each name and on nothing else. -/
theorem resolve_congr (h : WellFormed r) (h' : WellFormed r')
    (hg : ∀ name, r.get? name = r'.get? name) (expression : String) :
    SameOutcome (r.resolve expression) (r'.resolve expression) := by
  cases hn : r.get? expression with
  | some s =>
    rw [resolve_of_registered hn, resolve_of_registered ((hg expression).symm.trans hn)]
    exact .resolved _
  | none =>
    have hperm : (candidates expression r.stepDefs).Perm (candidates expression r'.stepDefs) :=
      (perm_of_get?_eq h h' hg).filterMap _
    rw [resolve_of_unregistered h hn,
      resolve_of_unregistered h' ((hg expression).symm.trans hn)]
    rcases hc : candidates expression r.stepDefs with _ | ⟨c, _ | ⟨d, cs⟩⟩ <;> rw [hc] at hperm
    · rw [hperm.symm.eq_nil]
      exact .resolved none
    · rw [← List.singleton_perm.mp hperm]
      exact .resolved (some c)
    · have hlen := hperm.length_eq
      rcases hc' : candidates expression r'.stepDefs with _ | ⟨c', _ | ⟨d', cs'⟩⟩ <;>
        rw [hc'] at hperm hlen
      · simp at hlen
      · simp at hlen
      · exact .ambiguous expression (hperm.map _)

/-- The registry that a history leaves, beginning with the empty one. -/
def history (ops : List Operation) : Registry := empty.applyAll ops

theorem wellFormed_history (ops : List Operation) : WellFormed (history ops) :=
  wellFormed_applyAll wellFormed_empty ops

/-- After any history, an exact name wins over all templates. Without one, the names that match are
none, one or several, and so is what the expression finds. In which order different names were
registered makes no difference. -/
theorem resolve_history (ops : List Operation) (expression : String) :
    let r := history ops
    let matched := r.names.filter fun name => (Template.values? name expression).isSome
    r.names = ((accepted [] ops).map (·.name)).eraseDups ∧
    (expression ∈ r.names → ∃ s ∈ r.stepDefs, s.name = expression ∧
      r.resolve expression = .ok (some { stepDef := s, params := [] })) ∧
    (expression ∉ r.names →
      (r.resolve expression = .ok none ↔ matched = []) ∧
      ((∃ found, r.resolve expression = .ok (some found)) ↔ matched.length = 1) ∧
      (∀ found, r.resolve expression = .ok (some found) ↔
        matched = [found.stepDef.name] ∧ found.stepDef ∈ r.stepDefs ∧
          Template.matching found.stepDef.name expression = .ok (some found.params)) ∧
      (∀ fault, r.resolve expression = .error fault ↔
        fault = .ambiguous expression matched ∧ 2 ≤ matched.length)) ∧
    (∀ fault, r.resolve expression ≠ .error (.repeated fault)) ∧
    ∀ ops', (∀ name, ops'.filter (·.concerns name) = ops.filter (·.concerns name)) →
      SameOutcome (r.resolve expression) ((history ops').resolve expression) := by
  intro r matched
  have hr : WellFormed r := wellFormed_history ops
  have hmatched : matched = (candidates expression r.stepDefs).map (·.stepDef.name) :=
    (names_candidates expression r.stepDefs).symm
  refine ⟨names_applyAll rfl ops, fun hm => ?_,
    fun hm => ⟨?_, ?_, fun found => ?_, fun fault => ?_⟩,
    resolve_ne_repeated hr expression, fun ops' hops => ?_⟩
  · obtain ⟨s, hs, rfl⟩ := mem_names.mp hm
    exact ⟨s, hs, rfl, resolve_of_registered (get?_of_mem hr hs)⟩
  · rw [resolve_eq_none_iff hr (get?_eq_none_iff.mpr hm), hmatched, List.map_eq_nil_iff]
  · simp only [resolve_eq_some_iff hr (get?_eq_none_iff.mpr hm), hmatched, List.length_map,
      List.length_eq_one_iff]
  · rw [resolve_eq_some_iff hr (get?_eq_none_iff.mpr hm), hmatched]
    constructor
    · intro hc
      have hf : found ∈ candidates expression r.stepDefs := hc ▸ List.mem_singleton_self found
      obtain ⟨hs, hv⟩ := mem_candidates.mp hf
      have hadmissible := hr.admissible _ (mem_names.mpr ⟨_, hs, rfl⟩)
      exact ⟨by rw [hc]; rfl, hs, by rw [Template.matching_of_check hadmissible.distinct, hv]⟩
    · rintro ⟨hc, hs, hv⟩
      have hf : found ∈ candidates expression r.stepDefs :=
        mem_candidates.mpr ⟨hs, by rw [Template.values?, hv]⟩
      obtain ⟨c, hone, -⟩ := List.map_eq_singleton_iff.mp hc
      rw [hone, List.mem_singleton] at hf
      rw [hone, hf]
  · rw [resolve_eq_error_iff hr (get?_eq_none_iff.mpr hm), hmatched, List.length_map]
  · refine resolve_congr hr (wellFormed_history ops') (fun name => ?_) expression
    calc r.get? name = (empty.applyAll (ops.filter (·.concerns name))).get? name :=
          get?_applyAll_filter rfl ops
      _ = (empty.applyAll (ops'.filter (·.concerns name))).get? name := by rw [hops]
      _ = (history ops').get? name := (get?_applyAll_filter rfl ops').symm

end Registry

end Gherkin
