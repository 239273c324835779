import Gherkin.Proofs.CanonicalPaths
import Gherkin.Proofs.Failures
import Gherkin.Proofs.MetaForm
import Gherkin.Proofs.RegistryHistory

/-! Where step definitions come from. Registration never forgets a name, nor a meta file that the
scenario under that name once came from, and a meta file that is registered leaves its tag at each
of its names. -/
namespace Gherkin

open EvalM

theorem Tag.same_definedIn {t : Tag} {p : Path} :
    t.same (.definedIn p) = true ↔ ∃ q, t = .definedIn q ∧ q.same p = true := by
  cases t <;> simp [Tag.same]

theorem Tag.any_same_definedIn {tags : List Tag} {p : Path} (h : .definedIn p ∈ tags) :
    tags.any (·.same (.definedIn p)) = true :=
  List.any_eq_true.mpr ⟨_, h, Tag.same_definedIn.mpr ⟨p, rfl, Path.same_refl p⟩⟩

namespace Registry

variable {r r' : Registry} {s : Scenario} {name : String} {p : Path}

/-- A scenario of this name is registered and has the tag of this meta file. -/
def Carries (r : Registry) (name : String) (p : Path) : Prop :=
  ∃ s, r.get? name = some s ∧ s.tags.any (·.same (.definedIn p)) = true

theorem get?_of_add (h : r.add s = .ok r') (name : String) :
    r'.get? name = if s.name = name then some (r.stored s) else r.get? name := by
  by_cases ha : Admissible s.name
  · cases (add_of_admissible ha).symm.trans h
    rw [get?, find?_insert, stored_name, get?]
  · obtain ⟨fault, hf⟩ := add_of_not_admissible (r := r) ha
    cases hf.symm.trans h

theorem subset_tags_stored (r : Registry) (s : Scenario) : s.tags ⊆ (r.stored s).tags := by
  intro t ht
  have has : t ∈ (asStepDef s).tags := by
    unfold asStepDef
    split
    · exact ht
    · exact List.mem_cons_of_mem _ ht
  exact List.mem_append_left _ has

theorem carries_of_add (h : r.add s = .ok r') (ht : .definedIn p ∈ s.tags) :
    r'.Carries s.name p :=
  ⟨r.stored s, by simp [get?_of_add h], Tag.any_same_definedIn (subset_tags_stored r s ht)⟩

/-- A tag that tells a meta file is inherited, unless the new scenario has it already. -/
theorem any_same_stored {old : Scenario} (ho : r.get? s.name = some old)
    (h : old.tags.any (·.same (.definedIn p)) = true) :
    (r.stored s).tags.any (·.same (.definedIn p)) = true := by
  obtain ⟨t, htm, hts⟩ := List.any_eq_true.mp h
  obtain ⟨q, rfl, hq⟩ := Tag.same_definedIn.mp hts
  rw [stored, ho, List.any_append, Bool.or_eq_true]
  by_cases hnew : (asStepDef s).tags.any (·.same (.definedIn q)) = true
  · obtain ⟨u, hu, hus⟩ := List.any_eq_true.mp hnew
    obtain ⟨q', rfl, hq'⟩ := Tag.same_definedIn.mp hus
    left
    exact List.any_eq_true.mpr ⟨_, hu, Tag.same_definedIn.mpr ⟨q', rfl, Path.same_trans hq' hq⟩⟩
  · right
    refine List.any_eq_true.mpr ⟨.definedIn q, ?_, hts⟩
    exact List.mem_filter.mpr ⟨htm, by simpa [Tag.isDefinedIn] using hnew⟩

/-- The tags that tell meta files stay with a name when its scenario is replaced. -/
theorem Carries.of_add (hc : r.Carries name p) (h : r.add s = .ok r') : r'.Carries name p := by
  obtain ⟨old, ho, ht⟩ := hc
  by_cases hn : s.name = name
  · exact ⟨r.stored s, by simp [get?_of_add h, hn], any_same_stored (hn ▸ ho) ht⟩
  · exact ⟨old, by simp [get?_of_add h, hn, ho], ht⟩

end Registry

variable {σ : Type} {action : Action σ} {ctx c : Context σ} {p : Path}

/-- Nothing happened to the loaded paths, and nothing was forgotten by the registry. -/
structure Remembers (ctx c : Context σ) : Prop where
  loaded : c.loaded = ctx.loaded
  carries : ∀ name p, ctx.registry.Carries name p → c.registry.Carries name p

theorem Remembers.refl (ctx : Context σ) : Remembers ctx ctx := ⟨rfl, fun _ _ => id⟩

theorem remembers_frame (action : Action σ) : ScenarioFrame action Remembers where
  refl := .refl
  trans hab hbc :=
    ⟨hbc.loaded.trans hab.loaded, fun name p => hbc.carries name p ∘ hab.carries name p⟩
  unbound _ _ := ⟨rfl, fun _ _ => id⟩
  attached _ _ := ⟨rfl, fun _ _ => id⟩
  acted _ _ := ⟨rfl, fun _ _ => id⟩
  tabled _ h := ⟨h.loaded, h.carries⟩
  called _ _ h := ⟨h.loaded, h.carries⟩
  registered h := ⟨rfl, fun _ _ hc => hc.of_add h⟩

/-- Step definitions are all registered, since none of them can fail, unless a policy has stopped the
run before. -/
theorem carries_of_evaluateScenarios {failed : Bool} {ss done : List Scenario}
    (hs : ∀ s ∈ ss, s.DefinedIn p)
    (hgo : (failed && (ctx.options.exitOnFail || ctx.options.failFast)) = false)
    (h : exec (evaluateScenarios action failed ss) ctx = (.ok done, c)) :
    ∀ s ∈ ss, c.registry.Carries s.name p := by
  induction ss generalizing ctx done with
  | nil => simp
  | cons s ss ih =>
    obtain ⟨⟨hdef, htag⟩, hss⟩ := List.forall_mem_cons.mp hs
    have hloaded : (s.marked .loaded).status.isFailed = false :=
      marked_not_failed s rfl (by simp)
    obtain ⟨hexit, hfast⟩ : (failed && ctx.options.exitOnFail) = false ∧
        (failed && ctx.options.failFast) = false := by
      cases failed <;> simp_all
    rw [exec_evaluateScenarios_cons, Scenario.exec_evaluate, if_pos hdef] at h
    cases hadd : ctx.registry.add s with
    | error fault => simp [hadd, hexit, hfast] at h
    | ok registry =>
      have hkeeps := (remembers_frame action).scenarios failed ss { ctx with registry }
      simp only [hadd, hloaded, hexit, hfast, Bool.false_eq_true, if_false, Bool.or_false] at h
      rcases hr : exec (evaluateScenarios action failed ss) { ctx with registry } with ⟨_ | ts, c'⟩
      · simp [hr, Except.map] at h
      · rw [hr] at hkeeps h
        cases h
        rw [List.forall_mem_cons]
        refine ⟨?_, ih hss (by exact hgo) hr⟩
        exact hkeeps.carries _ _ (Registry.carries_of_add hadd htag)

end Gherkin
