import Gherkin.Scopes

/-! How a value is found in the scopes, and where a binding goes. A value comes from the innermost
scope that binds its name, and a binding changes one scope. -/
namespace Gherkin

namespace Scope

variable {s : Scope} {name value m : String}

def Binds (s : Scope) (name : String) : Prop := name ∈ s.bindings.map (·.1)

instance : Decidable (s.Binds name) :=
  inferInstanceAs (Decidable (name ∈ s.bindings.map (·.1)))

/-- The value belongs to the last of the bindings of the name. -/
def Latest (s : Scope) (name value : String) : Prop :=
  ∃ before after, s.bindings = before ++ (name, value) :: after ∧ name ∉ after.map (·.1)

theorem get?_eq_none_iff_not_binds : s.get? name = none ↔ ¬ s.Binds name := by
  rw [get?_eq_none_iff, Binds, List.mem_map]
  constructor
  · rintro h ⟨⟨_, value⟩, hp, rfl⟩
    exact h value hp
  · exact fun h value hp => h ⟨_, hp, rfl⟩

theorem get?_eq_some_iff : s.get? name = some value ↔ s.Latest name value := by
  change Pairs.get? s.bindings.reverse name = some value ↔ _
  rw [Pairs.get?_eq_some_iff]
  constructor
  · rintro ⟨after, before, h, hafter⟩
    refine ⟨before.reverse, after.reverse, ?_, by simpa using hafter⟩
    rw [← List.reverse_inj, h]
    simp
  · rintro ⟨before, after, h, hafter⟩
    exact ⟨after.reverse, before.reverse, by simp [h], by simpa using hafter⟩

theorem getLast?_getAll (s : Scope) (name : String) : (s.getAll name).getLast? = s.get? name := by
  rw [getAll, get?, List.getLast?_map, List.getLast?_filter]

theorem get?_visible (s : Scope) (name : String) : s.visible.get? name = s.get? name := by
  rw [visible, Pairs.get?_putAll, Pairs.get?_nil, Option.or_none]
  rfl

theorem names_visible (s : Scope) : s.visible.map (·.1) = (s.bindings.map (·.1)).eraseDups :=
  Pairs.names_putAll_nil s.bindings

end Scope

namespace Scopes

variable {s t : Scopes} {scope name value : String} {nearer : List Scope}

/-- What scopes become when a value is bound to a name of a scope, and those of them that are more
specific than the one that gets the binding. -/
inductive Assigned (scope name value : String) (s : Scopes) : List Scope → Scopes → Prop
  /-- The feature scope gets it, although an open scope may be called the same. -/
  | feature : scope = Scope.featureName →
      Assigned scope name value s s.opened
        { s with feature := { s.feature with bindings := s.feature.bindings ++ [(name, value)] } }
  | nearest {nearer farther : List Scope} {c : Scope} (flash : List Flash) :
      scope ≠ Scope.featureName → s.opened = nearer ++ c :: farther →
      (∀ d ∈ nearer, d.name ≠ scope) → c.name = scope →
      Assigned scope name value s nearer
        { s with
          opened := nearer ++ { c with bindings := c.bindings ++ [(name, value)] } :: farther
          flash }
  /-- One is opened for it. -/
  | opened : scope ≠ Scope.featureName → (∀ d ∈ s.opened, d.name ≠ scope) →
      Assigned scope name value s []
        { s with opened := { name := scope, bindings := [(name, value)] } :: s.opened }

theorem setNearest?_eq_none (h : setNearest? scope name value s.opened = none) :
    ∀ d ∈ s.opened, d.name ≠ scope := by
  generalize s.opened = ss at h
  induction ss with
  | nil => simp
  | cons d ds ih =>
    simp only [setNearest?] at h
    split at h
    · cases h
    · next hd =>
      exact List.forall_mem_cons.mpr ⟨by simpa using hd, ih (Option.map_eq_none_iff.mp h)⟩

theorem setNearest?_eq_some {ss ts : List Scope} (h : setNearest? scope name value ss = some ts) :
    ∃ nearer c farther, ss = nearer ++ c :: farther ∧ (∀ d ∈ nearer, d.name ≠ scope) ∧
      c.name = scope ∧ ts = nearer ++ c.set name value :: farther := by
  induction ss generalizing ts with
  | nil => cases h
  | cons d ds ih =>
    simp only [setNearest?] at h
    split at h
    · next hd =>
      cases h
      exact ⟨[], d, ds, rfl, by simp, eq_of_beq hd, rfl⟩
    · next hd =>
      obtain ⟨rest, hrest, rfl⟩ := Option.map_eq_some_iff.mp h
      obtain ⟨nearer, c, farther, rfl, hnearer, hc, rfl⟩ := ih hrest
      exact ⟨d :: nearer, c, farther, rfl,
        List.forall_mem_cons.mpr ⟨by simpa using hd, hnearer⟩, hc, rfl⟩

theorem exists_assigned (s : Scopes) (scope name value : String) :
    ∃ nearer, Assigned scope name value s nearer (s.set scope name value) := by
  unfold set
  split
  · next hscope => exact ⟨_, .feature (eq_of_beq hscope)⟩
  · next hscope =>
    have hne : scope ≠ Scope.featureName := by simpa using hscope
    split
    · next hnone => exact ⟨[], .opened hne (setNearest?_eq_none hnone)⟩
    · next opened hsome =>
      obtain ⟨nearer, c, farther, ho, hnearer, hc, rfl⟩ := setNearest?_eq_some hsome
      exact ⟨nearer, .nearest _ hne ho hnearer hc⟩

theorem get?_eq_some_iff : s.get? name = some value ↔
    ∃ nearer c farther, s.all = nearer ++ c :: farther ∧ (∀ d ∈ nearer, ¬ d.Binds name) ∧
      c.Latest name value := by
  simp only [get?, List.findSome?_eq_some_iff, Scope.get?_eq_some_iff,
    Scope.get?_eq_none_iff_not_binds]
  constructor
  · rintro ⟨nearer, c, farther, h, hc, hnearer⟩
    exact ⟨nearer, c, farther, h, hnearer, hc⟩
  · rintro ⟨nearer, c, farther, h, hnearer, hc⟩
    exact ⟨nearer, c, farther, h, hc, hnearer⟩

theorem get?_eq_findSome?_visible (s : Scopes) (name : String) :
    s.get? name = s.visible.findSome? (·.2.get? name) := by
  rw [get?, visible, List.findSome?_map]
  congr 1
  funext c
  exact (c.get?_visible name).symm

/-- A binding in one of the scopes is found unless a nearer one hides it. -/
theorem findSome?_set (nearer farther : List Scope) (c : Scope) (name value m : String) :
    (nearer ++ c.set name value :: farther).findSome? (·.get? m) =
      if m = name ∧ ∀ d ∈ nearer, ¬ d.Binds name then some value
      else (nearer ++ c :: farther).findSome? (·.get? m) := by
  rw [List.findSome?_append, List.findSome?_append, List.findSome?_cons, List.findSome?_cons,
    Scope.get?_set]
  by_cases hm : m = name
  · subst hm
    by_cases hnearer : ∀ d ∈ nearer, ¬ d.Binds m
    · have hnone : nearer.findSome? (·.get? m) = none := by
        simpa only [List.findSome?_eq_none_iff, Scope.get?_eq_none_iff_not_binds] using hnearer
      rw [if_pos rfl, if_pos ⟨rfl, hnearer⟩, hnone, Option.none_or]
    · obtain ⟨v, hv⟩ : ∃ v, nearer.findSome? (·.get? m) = some v := by
        rw [← Option.ne_none_iff_exists', ne_eq]
        simpa only [List.findSome?_eq_none_iff, Scope.get?_eq_none_iff_not_binds] using hnearer
      rw [if_pos rfl, if_neg (hnearer ·.2), hv, Option.some_or, Option.some_or]
  · rw [if_neg (Ne.symm hm), if_neg (hm ·.1)]

theorem Assigned.get?_eq (h : Assigned scope name value s nearer t) (m : String) :
    t.get? m =
      if m = name ∧ ∀ d ∈ nearer, ¬ d.Binds name then some value else s.get? m := by
  cases h with
  | feature => exact findSome?_set s.opened [] s.feature name value m
  | @nearest _ farther c _ _ ho =>
    simp only [get?, all, ho, List.append_assoc, List.cons_append]
    exact findSome?_set nearer (farther ++ [s.feature]) c name value m
  | opened =>
    -- What is opened would find nothing before the binding.
    exact findSome?_set [] s.all { name := scope } name value m

/-- The value of a name is that of its last binding in the innermost scope that binds it, which is
what the visible bindings show. Those of a scope stand in the order in which their names were first
bound, each with the last of all its values. A binding is appended to one scope: the feature scope
for its name, the nearest open scope of any other, or one opened for it. It changes the value of its
own name only, and that unless a nearer scope binds the name. -/
theorem scoping_laws (s : Scopes) :
    (∀ m v, s.get? m = some v ↔ ∃ nearer c farther, s.all = nearer ++ c :: farther ∧
      (∀ d ∈ nearer, ¬ d.Binds m) ∧ c.Latest m v) ∧
    (∀ m, s.get? m = none ↔ ∀ c ∈ s.all, ¬ c.Binds m) ∧
    (∀ m, s.get? m = s.visible.findSome? (·.2.get? m)) ∧
    (∀ c ∈ s.all, c.visible.map (·.1) = (c.bindings.map (·.1)).eraseDups ∧
      ∀ m, c.visible.get? m = (c.getAll m).getLast?) ∧
    ∀ scope name value,
      let t := s.set scope name value
      ∃ nearer, Assigned scope name value s nearer t ∧
        (∀ m, m ≠ name → t.get? m = s.get? m) ∧
        ((∀ d ∈ nearer, ¬ d.Binds name) → t.get? name = some value) ∧
        ((∃ d ∈ nearer, d.Binds name) → t.get? name = s.get? name) := by
  refine ⟨fun m v => get?_eq_some_iff, fun m => ?_, get?_eq_findSome?_visible s,
    fun c _ => ⟨c.names_visible, fun m => ?_⟩, fun scope name value => ?_⟩
  · simp only [get?, List.findSome?_eq_none_iff, Scope.get?_eq_none_iff_not_binds]
  · rw [c.get?_visible, c.getLast?_getAll]
  · obtain ⟨nearer, h⟩ := exists_assigned s scope name value
    refine ⟨nearer, h, fun m hm => ?_, fun hfree => ?_, fun hhidden => ?_⟩
    · rw [h.get?_eq, if_neg fun he => hm he.1]
    · rw [h.get?_eq, if_pos ⟨rfl, hfree⟩]
    · obtain ⟨d, hd, hbinds⟩ := hhidden
      rw [h.get?_eq, if_neg fun he => he.2 d hd hbinds]

/-- Two open scopes of one name, and between them one that is called like the feature scope. -/
def shadowing : Scopes where
  opened := [
    { name := "vars", bindings := [("user", "ada"), ("user", "grace")] },
    { name := "feature" },
    { name := "vars", bindings := [("user", "eve"), ("page", "1")] }]
  feature := { name := "feature", bindings := [("user", "bob"), ("title", "countess")] }

theorem scoping_laws_shadowing :
    let t := shadowing.set "feature" "user" "joan"
    let u := shadowing.set "vars" "user" "joan"
    t.feature.getAll "user" = ["bob", "joan"] ∧ t.get? "user" = some "grace" ∧
    t.get? "title" = some "countess" ∧ u.get? "user" = some "joan" ∧
    u.visible.map (·.1) = ["vars", "feature", "vars", "feature"] := by
  intro t u
  obtain ⟨-, -, -, -, hset⟩ := scoping_laws shadowing
  obtain ⟨nearer, h, hother, -, hhidden⟩ := hset "feature" "user" "joan"
  obtain ⟨nearer', h', -, hbound, -⟩ := hset "vars" "user" "joan"
  have hnearer : nearer = shadowing.opened := by
    generalize shadowing.set "feature" "user" "joan" = r at h
    cases h with
    | feature => rfl
    | nearest _ hne => exact absurd rfl hne
    | opened hne => exact absurd rfl hne
  have hnearer' : nearer' = [] := by
    generalize shadowing.set "vars" "user" "joan" = r at h'
    cases h' with
    | feature hname => exact absurd hname (by decide)
    | nearest _ _ ho hnot =>
      rcases nearer' with _ | ⟨d, ds⟩
      · rfl
      · obtain ⟨rfl, -⟩ := List.cons.inj ho
        exact absurd rfl (hnot _ List.mem_cons_self)
    | opened => rfl
  subst hnearer hnearer'
  refine ⟨by decide, ?_, ?_, hbound (by simp), by decide⟩
  · rw [hhidden (by decide)]
    decide
  · rw [hother "title" (by decide)]
    decide

end Scopes

end Gherkin
