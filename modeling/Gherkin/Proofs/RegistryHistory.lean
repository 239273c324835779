import Gherkin.Registry

/-! What a registry holds after any history of registrations, some of them refused, and clearings.
A name keeps the place of its first registration. -/
namespace Gherkin.Registry

variable {r : Registry} {s : Scenario} {ss : List Scenario} {name : String}

/-- A name that can be registered: no keyword in front and no placeholder twice. -/
structure Admissible (name : String) : Prop where
  keywordFree : firstKeyword? name = none
  distinct : Template.check name = .ok ()

instance (name : String) : Decidable (Admissible name) :=
  decidable_of_iff (firstKeyword? name = none ∧
      Template.firstRepeat? [] (Template.placeholders name) = none) <| by
    have hcheck : Template.check name = .ok () ↔
        Template.firstRepeat? [] (Template.placeholders name) = none := by
      unfold Template.check
      split <;> simp_all
    rw [← hcheck]
    exact ⟨fun h => ⟨h.1, h.2⟩, fun h => ⟨h.1, h.2⟩⟩

/-- What is registered for a scenario. -/
def stored (r : Registry) (s : Scenario) : Scenario :=
  { asStepDef s with
    tags := (asStepDef s).tags ++ (r.get? s.name).elim [] (inheritedTags · (asStepDef s).tags) }

@[simp] theorem asStepDef_name (s : Scenario) : (asStepDef s).name = s.name := by
  unfold asStepDef
  split <;> rfl

@[simp] theorem stored_name (r : Registry) (s : Scenario) : (r.stored s).name = s.name :=
  asStepDef_name s

theorem add_of_admissible (h : Admissible s.name) :
    r.add s = .ok { stepDefs := insert (r.stored s) r.stepDefs } := by
  simp only [add, h.keywordFree, h.distinct, asStepDef_name, stored]

theorem add_of_not_admissible (h : ¬ Admissible s.name) : ∃ fault, r.add s = .error fault := by
  unfold add
  split
  · exact ⟨_, rfl⟩
  · next hk =>
    split
    · exact ⟨_, rfl⟩
    · next hc => exact absurd ⟨hk, hc⟩ h

theorem names_insert (s : Scenario) (ss : List Scenario) :
    (insert s ss).map (·.name) =
      if s.name ∈ ss.map (·.name) then ss.map (·.name) else ss.map (·.name) ++ [s.name] := by
  induction ss with
  | nil => rfl
  | cons t ts ih =>
    by_cases ht : t.name = s.name
    · simp [insert, ht]
    · have hne : s.name ≠ t.name := Ne.symm ht
      simp only [insert, beq_iff_eq, ht, if_false, List.map_cons, ih, List.mem_cons, hne, false_or]
      split <;> rfl

theorem find?_insert (s : Scenario) (ss : List Scenario) (name : String) :
    (insert s ss).find? (·.name == name) =
      if s.name = name then some s else ss.find? (·.name == name) := by
  induction ss with
  | nil => by_cases h : s.name = name <;> simp [insert, h]
  | cons t ts ih =>
    by_cases ht : t.name = s.name
    · by_cases h : s.name = name <;> simp [insert, ht, h]
    · simp only [insert, beq_iff_eq, ht, if_false, List.find?_cons, ih]
      by_cases h : s.name = name
      · have hne : (t.name == name) = false := by simpa [← h] using ht
        simp [hne, h]
      · simp [h]

/-- What happens to a registry. -/
inductive Operation where
  | add (s : Scenario)
  | clear

namespace Operation

/-- A registration that is refused changes nothing. -/
def apply (r : Registry) : Operation → Registry
  | add s =>
    match r.add s with
    | .ok registry => registry
    | .error _ => r
  | clear => empty

/-- Whether the operation may change what is registered under a name. -/
def concerns (name : String) : Operation → Bool
  | add s => s.name == name
  | clear => true

end Operation

/-- The registry after some operations. -/
def applyAll (r : Registry) (ops : List Operation) : Registry :=
  ops.foldl Operation.apply r

/-- The scenarios that were accepted since the registry was last cleared, in order. -/
def accepted (before : List Scenario) : List Operation → List Scenario
  | [] => before
  | .add s :: ops => accepted (if Admissible s.name then before ++ [s] else before) ops
  | .clear :: ops => accepted [] ops

theorem apply_add (r : Registry) (s : Scenario) :
    Operation.apply r (.add s) =
      if Admissible s.name then { stepDefs := insert (r.stored s) r.stepDefs } else r := by
  by_cases h : Admissible s.name
  · simp [Operation.apply, add_of_admissible h, h]
  · obtain ⟨fault, hf⟩ := add_of_not_admissible (r := r) h
    simp [Operation.apply, hf, h]

theorem names_apply_add (r : Registry) (s : Scenario) :
    (Operation.apply r (.add s)).names =
      if Admissible s.name ∧ s.name ∉ r.names then r.names ++ [s.name] else r.names := by
  rw [apply_add]
  by_cases h : Admissible s.name
  · have hins := names_insert (r.stored s) r.stepDefs
    rw [stored_name] at hins
    simp only [h, if_true, true_and, names, hins]
    by_cases hm : s.name ∈ r.stepDefs.map (·.name)
    · simp only [hm, if_true, not_true, if_false]
    · simp only [hm, if_false, not_false_eq_true, if_true]
  · simp [h]

/-- Every name is registered once, and no name that would be refused is. -/
structure WellFormed (r : Registry) : Prop where
  nodup : r.names.Nodup
  admissible : ∀ name ∈ r.names, Admissible name

theorem wellFormed_empty : WellFormed empty := ⟨List.nodup_nil, by simp [empty, names]⟩

theorem wellFormed_apply (h : WellFormed r) (op : Operation) : WellFormed (op.apply r) := by
  cases op with
  | clear => exact wellFormed_empty
  | add s =>
    constructor <;> rw [names_apply_add] <;> split
    · next ha => exact Pairs.nodup_concat h.nodup ha.2
    · exact h.nodup
    · next ha =>
      intro name hm
      rcases List.mem_append.mp hm with hm | hm
      · exact h.admissible name hm
      · exact List.mem_singleton.mp hm ▸ ha.1
    · exact h.admissible

theorem wellFormed_applyAll (h : WellFormed r) (ops : List Operation) :
    WellFormed (r.applyAll ops) := by
  induction ops generalizing r with
  | nil => exact h
  | cons op ops ih => exact ih (wellFormed_apply h op)

/-- The names stand in the order in which they were first accepted. -/
theorem names_applyAll {before : List Scenario} (h : r.names = (before.map (·.name)).eraseDups)
    (ops : List Operation) :
    (r.applyAll ops).names = ((accepted before ops).map (·.name)).eraseDups := by
  induction ops generalizing r before with
  | nil => exact h
  | cons op ops ih =>
    cases op with
    | clear => exact ih rfl
    | add s =>
      refine ih ?_
      rw [names_apply_add, h]
      by_cases ha : Admissible s.name
      · simp only [ha, true_and, if_true, List.map_append, List.map_singleton,
          Pairs.eraseDups_concat, List.mem_eraseDups, ite_not]
      · simp only [ha, false_and, if_false]

theorem WellFormed.nodup_stepDefs (h : WellFormed r) : r.stepDefs.Nodup :=
  List.Pairwise.of_map (·.name) (fun _ _ hne he => hne (congrArg _ he)) h.nodup

theorem mem_names : name ∈ r.names ↔ ∃ s ∈ r.stepDefs, s.name = name := List.mem_map

theorem get?_of_mem (h : WellFormed r) (hs : s ∈ r.stepDefs) : r.get? s.name = some s := by
  have hd := h.nodup
  unfold names get? at *
  generalize r.stepDefs = ss at hs hd
  induction ss with
  | nil => cases hs
  | cons t ts ih =>
    rw [List.map_cons, List.nodup_cons] at hd
    rcases List.mem_cons.mp hs with rfl | hs
    · simp
    · have hne : t.name ≠ s.name := fun he => hd.1 (List.mem_map.mpr ⟨s, hs, he.symm⟩)
      simp [hne, ih hs hd.2]

theorem mem_of_get? (h : r.get? name = some s) : s ∈ r.stepDefs ∧ s.name = name :=
  ⟨List.mem_of_find?_eq_some h, by simpa using List.find?_some h⟩

theorem get?_eq_none_iff : r.get? name = none ↔ name ∉ r.names := by
  simp [get?, names]

theorem get?_apply_add (r : Registry) (s : Scenario) (name : String) :
    (Operation.apply r (.add s)).get? name =
      if Admissible s.name ∧ s.name = name then some (r.stored s) else r.get? name := by
  rw [apply_add]
  by_cases h : Admissible s.name
  · simp only [h, if_true, true_and, get?, find?_insert, stored_name]
  · simp only [h, if_false, false_and]

/-- What is registered under a name depends only on the operations that concern it. -/
theorem get?_applyAll_filter {r' : Registry} (h : r.get? name = r'.get? name)
    (ops : List Operation) :
    (r.applyAll ops).get? name = (r'.applyAll (ops.filter (·.concerns name))).get? name := by
  induction ops generalizing r r' with
  | nil => exact h
  | cons op ops ih =>
    cases op with
    | clear => exact ih rfl
    | add s =>
      by_cases hs : s.name = name
      · have hc : (Operation.add s).concerns name = true := by simp [Operation.concerns, hs]
        rw [List.filter_cons_of_pos hc]
        refine ih ?_
        rw [get?_apply_add, get?_apply_add, stored, stored, hs, h]
      · have hc : ¬ (Operation.add s).concerns name = true := by simp [Operation.concerns, hs]
        rw [List.filter_cons_of_neg hc]
        refine ih ?_
        rw [get?_apply_add, if_neg fun hx => hs hx.2, h]

/-- Two registries that agree on every name differ only in the order of their step definitions. -/
theorem perm_of_get?_eq {r' : Registry} (h : WellFormed r) (h' : WellFormed r')
    (hg : ∀ name, r.get? name = r'.get? name) : r.stepDefs.Perm r'.stepDefs := by
  refine (List.perm_ext_iff_of_nodup h.nodup_stepDefs h'.nodup_stepDefs).mpr fun s =>
    ⟨fun hs => ?_, fun hs => ?_⟩
  · exact (mem_of_get? ((hg s.name).symm.trans (get?_of_mem h hs))).1
  · exact (mem_of_get? ((hg s.name).trans (get?_of_mem h' hs))).1

end Gherkin.Registry
