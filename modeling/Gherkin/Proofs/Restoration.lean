import Gherkin.Proofs.Invariance
import Gherkin.Proofs.OpenScopes

/-! Evaluation closes what it opens, whether it succeeds, fails or ends in an error. -/
namespace Gherkin

open EvalM

variable {σ : Type} {action : Action σ}

/-- The action changes the scopes by allowed operations and in no other way. -/
def Action.Uses (allowed : Scopes.Operation → Prop) (action : Action σ) : Prop :=
  ∀ expression settings scopes state, ∃ ops : List Scopes.Operation, (∀ op ∈ ops, allowed op) ∧
    (action expression settings scopes state).scopes = Scopes.Operation.applyAll ops scopes

theorem Action.Uses.mono {allowed more : Scopes.Operation → Prop} (h : action.Uses allowed)
    (hle : ∀ op, allowed op → more op) : action.Uses more := by
  intro expression settings scopes state
  obtain ⟨ops, ho, he⟩ := h expression settings scopes state
  exact ⟨ops, fun op hop => hle op (ho op hop), he⟩

theorem builtin_uses : (Action.builtin : Action σ).Uses Scopes.Operation.Appends := by
  intro expression settings scopes state
  simp only [Action.builtin, Action.byRules]
  split
  · exact ⟨[], by simp, rfl⟩
  · next name value _ =>
    refine ⟨[.set Scope.featureName name value], fun op hop => ?_, rfl⟩
    exact ⟨name, value, List.mem_singleton.mp hop⟩
  · exact ⟨[], by simp, rfl⟩
  · exact ⟨[], by simp, rfl⟩

namespace Context

/-- The contexts that operations lead to from a new one, those inside an evaluation included: after
the table of a step was bound, where the body of a step definition begins, and after each step. -/
inductive Reachable (action : Action σ) : Context σ → Prop
  | fresh (settings options store state) : Reachable action { settings, options, store, state }
  | configured {ctx} (options store) : Reachable action ctx →
      Reachable action { ctx with options, store }
  | edited {ctx} (op : Scopes.Operation) : Reachable action ctx →
      Reachable action { ctx with scopes := op.apply ctx.scopes }
  | reset {ctx} : Reachable action ctx → Reachable action ctx.reset
  | entered {ctx} (frame params) : Reachable action ctx →
      Reachable action (entered frame params ctx)
  | step {ctx} (room) (s : Step) : Reachable action ctx →
      Reachable action (exec (s.evaluate action room) ctx).2
  | scenario {ctx} (s : Scenario) : Reachable action ctx →
      Reachable action (exec (s.evaluate action) ctx).2
  | feature {ctx} (f : Feature) : Reachable action ctx →
      Reachable action (exec (f.evaluate action) ctx).2
  | run {ctx} (files) (f : Feature) (record) : Reachable action ctx →
      Reachable action (exec (f.run action files record) ctx).2

end Context

theorem sound_frame (h : action.Uses fun _ => True) :
    FeatureFrame action fun ctx c => ctx.scopes.Sound → c.scopes.Sound where
  refl _ := id
  trans hab hbc := hbc ∘ hab
  unbound _ _ := id
  attached _ _ := id
  acted {ctx} expression _ hs := by
    obtain ⟨ops, _, he⟩ := h expression ctx.settings ctx.scopes ctx.state
    simp only [Context.acted, Context.note, he]
    exact Scopes.sound_applyAll ops hs
  tabled table hc hs := Scopes.sound_apply (.clear _) (hc (Scopes.sound_apply (.bind _ _) hs))
  called frame params hc hs := Scopes.sound_truncate (hc (Scopes.sound_apply (.push _) hs)) _
  registered _ := id
  loaded _ _ := id

theorem Context.Reachable.sound (h : action.Uses fun _ => True) {ctx : Context σ}
    (hr : Reachable action ctx) : ctx.scopes.Sound := by
  have frame := sound_frame h
  induction hr with
  | fresh => exact Scopes.sound_new
  | configured _ _ _ ih => exact ih
  | edited op _ ih => exact Scopes.sound_apply op ih
  | reset _ ih => exact Scopes.sound_apply .reset ih
  | entered _ _ _ ih => exact Scopes.sound_apply (.push _) ih
  | step room s _ ih => exact frame.step room s _ ih
  | scenario s _ ih => exact frame.scenario s _ ih
  | feature f _ ih => exact frame.feature f _ ih
  | run files f record _ ih => exact frame.run files f record _ ih

/-- Scopes and calls are as before, but for bindings added to the feature scope. -/
structure Restored (ctx c : Context σ) : Prop where
  scopes : ctx.scopes.Restored c.scopes
  calls : c.calls = ctx.calls

theorem restored_frame (h : action.Uses Scopes.Operation.Appends) :
    FeatureFrame action fun ctx c => ctx.scopes.Sound → c.scopes.Sound ∧ Restored ctx c := by
  have sound := sound_frame (h.mono fun _ _ => trivial)
  exact {
    refl := fun ctx hs => ⟨hs, .refl _, rfl⟩
    trans := fun hab hbc hs => by
      obtain ⟨hb, h₁⟩ := hab hs
      obtain ⟨hc, h₂⟩ := hbc hb
      exact ⟨hc, h₁.scopes.trans h₂.scopes, h₂.calls.trans h₁.calls⟩
    unbound := fun _ _ hs => ⟨hs, .refl _, rfl⟩
    attached := fun ctx cause hs => ⟨hs, .refl _, rfl⟩
    acted := fun {ctx} expression hdry hs => by
      refine ⟨sound.acted expression hdry hs, ?_, rfl⟩
      obtain ⟨ops, ho, he⟩ := h expression ctx.settings ctx.scopes ctx.state
      simp only [Context.acted, Context.note, he]
      exact Scopes.restored_applyAll ho _
    tabled := fun table hc hs => by
      obtain ⟨ht, hr⟩ := hc (Scopes.sound_apply (.bind _ _) hs)
      exact ⟨Scopes.sound_apply (.clear _) ht, Scopes.restored_clearObject hs hr.scopes, hr.calls⟩
    called := fun frame params hc hs => by
      obtain ⟨ht, hr⟩ := hc (Scopes.sound_apply (.push _) hs)
      refine ⟨Scopes.sound_truncate ht _, Scopes.restored_truncate hs hr.scopes, ?_⟩
      exact congrArg (List.drop 1) hr.calls
    registered := fun _ hs => ⟨hs, .refl _, rfl⟩
    loaded := fun ctx loaded hs => ⟨hs, .refl _, rfl⟩ }

theorem over_frame (h : action.Uses Scopes.Operation.Opens) :
    StepFrame action fun ctx c => ctx.scopes.Sound → c.scopes.Sound ∧ ctx.scopes.Over c.scopes := by
  have sound := sound_frame (h.mono fun _ _ => trivial)
  exact {
    refl := fun ctx hs => ⟨hs, .refl _⟩
    trans := fun hab hbc hs => by
      obtain ⟨hb, h₁⟩ := hab hs
      obtain ⟨hc, h₂⟩ := hbc hb
      exact ⟨hc, h₁.trans h₂⟩
    unbound := fun _ _ hs => ⟨hs, .refl _⟩
    attached := fun ctx cause hs => ⟨hs, .refl _⟩
    acted := fun {ctx} expression hdry hs => by
      refine ⟨sound.acted expression hdry hs, ?_⟩
      obtain ⟨ops, ho, he⟩ := h expression ctx.settings ctx.scopes ctx.state
      simp only [Context.acted, Context.note, he]
      exact Scopes.over_applyAll ho _
    tabled := fun table hc hs => by
      obtain ⟨ht, ho⟩ := hc (Scopes.sound_apply (.bind _ _) hs)
      exact ⟨Scopes.sound_apply (.clear _) ht, ho.depth, ho.opened, ho.flash, ho.feature⟩
    called := fun frame params hc hs => by
      obtain ⟨ht, ho⟩ := hc (Scopes.sound_apply (.push _) hs)
      exact ⟨Scopes.sound_truncate ht _, (Scopes.level_truncate hs ht ho).over⟩ }

theorem definitions_frame (action : Action σ) :
    StepFrame action fun ctx c => c.registry = ctx.registry ∧ c.loaded = ctx.loaded where
  refl _ := ⟨rfl, rfl⟩
  trans h₁ h₂ := ⟨h₂.1.trans h₁.1, h₂.2.trans h₁.2⟩
  unbound _ _ := ⟨rfl, rfl⟩
  attached _ _ := ⟨rfl, rfl⟩
  acted _ _ := ⟨rfl, rfl⟩
  tabled _ := id
  called _ _ := id

/-- A call returns to the scopes it began in, even if actions opened scopes inside it. -/
theorem level_call (h : action.Uses Scopes.Operation.Opens) {ctx : Context σ}
    (hs : ctx.scopes.Sound) (room : Nat) (s : Step) (expression : String)
    (found : Registry.Resolved) :
    ctx.scopes.Level (exec (s.call (Scenario.evaluateBody (Step.evaluate action room)) expression
      found) ctx).2.scopes := by
  have frame := over_frame h
  rw [Step.exec_call]
  dsimp only
  split
  · exact ⟨List.forall₂_same.mpr fun s _ => .refl s, rfl, .refl _⟩
  · obtain ⟨ht, ho⟩ := frame.body (frame.step room) found.stepDef
      (ctx.entered { name := found.stepDef.name, expression } found.params)
      (Scopes.sound_apply (.push _) hs)
    exact Scopes.level_truncate hs ht ho

/-- Evaluation restores everything it opens, on success, on failure and on an error alike. -/
theorem evaluation_restores (action : Action σ) :
    (action.Uses Scopes.Operation.Appends → ∀ ctx, Context.Reachable action ctx →
      (∀ room (s : Step), Restored ctx (exec (s.evaluate action room) ctx).2) ∧
      (∀ s : Scenario, Restored ctx (exec (s.evaluate action) ctx).2) ∧
      ∀ f : Feature, Restored ctx (exec (f.evaluate action) ctx).2) ∧
    (∀ ctx : Context σ,
      (∀ room (s : Step), (exec (s.evaluate action room) ctx).2.registry = ctx.registry ∧
        (exec (s.evaluate action room) ctx).2.loaded = ctx.loaded) ∧
      ∀ s : Scenario, s.isStepDef = false →
        (exec (s.evaluate action) ctx).2.registry = ctx.registry ∧
        (exec (s.evaluate action) ctx).2.loaded = ctx.loaded) ∧
    (action.Uses Scopes.Operation.Opens → ∀ ctx, Context.Reachable action ctx →
      ∀ room (s : Step) expression found, ctx.scopes.Level (exec (s.call
        (Scenario.evaluateBody (Step.evaluate action room)) expression found) ctx).2.scopes) := by
  refine ⟨fun h ctx hr => ?_, fun ctx => ⟨fun room s => ?_, fun s hs => ?_⟩, fun h ctx hr => ?_⟩
  · have hs := hr.sound (h.mono fun _ _ => trivial)
    have frame := restored_frame h
    exact ⟨fun room s => (frame.step room s ctx hs).2, fun s => (frame.scenario s ctx hs).2,
      fun f => (frame.feature f ctx hs).2⟩
  · exact (definitions_frame action).step room s ctx
  · exact (definitions_frame action).scenario_of_not_stepDef hs ctx
  · exact level_call h (hr.sound (h.mono fun _ _ => trivial))

/-- A step that binds an attribute, and one that asserts it. -/
def opening : Feature where
  header := { name := "Door" }
  scenarios := [{ name := "Opening", steps := [
    { keyword := .given, expression := "door is \"open\"" },
    { keyword := .then, expression := "door should be \"open\"" }] }]

theorem evaluation_restores_opening :
    Restored ({ state := () } : Context Unit)
      (exec (opening.evaluate .builtin) { state := () }).2 :=
  ((evaluation_restores .builtin).1 builtin_uses _ (.fresh {} {} {} ())).2.2 opening

end Gherkin
