import Gherkin.Scopes

/-! What filtering leaves of scopes. It comes to the same before and after scopes are closed. -/
namespace Gherkin

/-- Names are accepted or not whatever their values are. -/
theorem Pairs.get?_filter (accepts : String → Bool) (ps : Pairs) (name : String) :
    get? (ps.filter fun p => accepts p.1) name = if accepts name then get? ps name else none := by
  induction ps with
  | nil => simp
  | cons p ps ih =>
    rw [List.filter_cons]
    by_cases hp : p.1 = name
    · subst hp
      by_cases ha : accepts p.1 <;> simp [ha, get?_cons, ih]
    · rw [get?_cons, if_neg hp, ← ih]
      split
      · rw [get?_cons, if_neg hp]
      · rfl

namespace Scope

variable {keep : String → String → Bool} {accepts : String → Bool}

theorem filter_filter (keep also : String → String → Bool) (s : Scope) :
    (s.filter keep).filter also =
      s.filter fun name value => keep name value && also name value := by
  simp only [filter, List.filter_filter, Bool.and_comm]

theorem get?_filter (h : ∀ name value, keep name value = accepts name) (s : Scope) (name : String) :
    (s.filter keep).get? name = if accepts name then s.get? name else none := by
  have hkeep : s.filter keep = { s with bindings := s.bindings.filter fun b => accepts b.1 } := by
    simp only [filter, h]
  change Pairs.get? (s.filter keep).bindings.reverse name =
    if accepts name then Pairs.get? s.bindings.reverse name else none
  rw [hkeep, ← List.filter_reverse, Pairs.get?_filter]

end Scope

namespace Scopes

variable {keep : String → String → Bool} {accepts : String → Bool}

theorem all_filter (keep : String → String → Bool) (s : Scopes) :
    (s.filter keep).all = s.all.map (·.filter keep) := by
  rw [all, all, List.map_append]
  rfl

theorem depth_filter (keep : String → String → Bool) (s : Scopes) :
    (s.filter keep).depth = s.depth := by
  rw [depth, filter, List.length_map, depth]

theorem filter_filter (keep also : String → String → Bool) (s : Scopes) :
    (s.filter keep).filter also =
      s.filter fun name value => keep name value && also name value := by
  simp only [filter, List.map_map, List.filter_filter, Scope.filter_filter, Function.comp_def,
    Bool.and_comm]

/-- The values that were hidden in the scope closed are told by their depth alone. -/
theorem filter_pop (keep : String → String → Bool) (s : Scopes) :
    s.pop.filter keep = (s.filter keep).pop := by
  rcases s with ⟨_ | ⟨top, rest⟩, feature, flash, objects⟩
  · rfl
  · simp only [pop, filter, depth, List.map_cons, List.length_cons, List.length_map,
      List.filter_filter, Bool.and_comm]

theorem filter_truncate (keep : String → String → Bool) (s : Scopes) (d : Nat) :
    (s.truncate d).filter keep = (s.filter keep).truncate d := by
  have hgo (n : Nat) : (truncate.go n s).filter keep = truncate.go n (s.filter keep) := by
    induction n generalizing s with
    | zero => rfl
    | succ n ih => rw [truncate.go, truncate.go, ih, filter_pop]
  rw [truncate, truncate, depth_filter, hgo]

theorem get?_filter (h : ∀ name value, keep name value = accepts name) (s : Scopes)
    (name : String) : (s.filter keep).get? name = if accepts name then s.get? name else none := by
  have hfind (c : Scope) : (c.filter keep).get? name = if accepts name then c.get? name else none :=
    c.get?_filter h name
  rw [get?, get?, all_filter, List.findSome?_map]
  simp only [Function.comp_def, hfind]
  split <;> simp

/-- Filtering keeps the scopes, and of their bindings and of what was hidden exactly what is
accepted, in order. To filter twice is to accept what both accept, and it makes no difference
whether scopes are closed before or after. If names are accepted whatever their values are, a name
has the value it had, or none if it is not accepted. -/
theorem filter_projects (keep also : String → String → Bool) (s : Scopes) :
    let t := s.filter keep
    t.depth = s.depth ∧ t.all.map (·.name) = s.all.map (·.name) ∧
    t.all.map (·.bindings) = s.all.map (fun c => c.bindings.filter fun b => keep b.1 b.2) ∧
    t.flash = s.flash.filter (fun f => keep f.name f.value) ∧
    t.filter also = s.filter (fun name value => keep name value && also name value) ∧
    s.pop.filter keep = t.pop ∧ t.opened.head? = s.opened.head?.map (·.filter keep) ∧
    (∀ d, (s.truncate d).filter keep = t.truncate d) ∧
    ∀ accepts : String → Bool, (∀ name value, keep name value = accepts name) →
      ∀ name, t.get? name = if accepts name then s.get? name else none := by
  refine ⟨depth_filter keep s, ?_, ?_, rfl, filter_filter keep also s, filter_pop keep s,
    List.head?_map, filter_truncate keep s, fun accepts h name => get?_filter h s name⟩
  · rw [all_filter, List.map_map]
    rfl
  · rw [all_filter, List.map_map]
    rfl

/-- A value is hidden in an open scope, and of the names only one is accepted. -/
theorem filter_projects_user :
    let keep : String → String → Bool := fun name _ => name == "user"
    let s := ((new.set "feature" "user" "ada").set "vars" "page" "1").set "vars" "user" "eve"
    let t := (s.set "vars" "user" "joan").filter keep
    (∀ name value, keep name value = (name == "user")) ∧
    t.flash = [{ scope := "vars", name := "user", value := "eve", depth := 1 }] ∧
    t.get? "user" = some "joan" ∧ t.get? "page" = none ∧
    t.pop.flash = [] ∧ t.pop.get? "user" = some "ada" := by
  intro keep s t
  obtain ⟨-, -, -, hflash, -, hpop, -, -, hget⟩ :=
    filter_projects keep keep (s.set "vars" "user" "joan")
  have hnames : ∀ name value, keep name value = (name == "user") := fun _ _ => rfl
  have hvalue := hget (· == "user") hnames
  refine ⟨hnames, hflash.trans (by decide), (hvalue "user").trans (by decide),
    (hvalue "page").trans (by decide), ?_, ?_⟩
  · exact (congrArg flash hpop).symm.trans (by decide)
  · exact (congrArg (get? · "user") hpop).symm.trans (by decide)

end Scopes

end Gherkin
