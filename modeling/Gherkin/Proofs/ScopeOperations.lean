import Gherkin.Scopes
import Mathlib.Data.List.Forall2

/-! The operations on scopes, and what each leaves as it was. -/
namespace Gherkin

namespace Scope

/-- The same scope with bindings added at the end. -/
def Extended (s t : Scope) : Prop := t.name = s.name ∧ s.bindings <+: t.bindings

theorem Extended.refl (s : Scope) : Extended s s := ⟨rfl, List.prefix_rfl⟩

theorem Extended.trans {s t u : Scope} (h₁ : Extended s t) (h₂ : Extended t u) : Extended s u :=
  ⟨h₂.1.trans h₁.1, h₁.2.trans h₂.2⟩

theorem extended_set (s : Scope) (name value : String) : Extended s (s.set name value) :=
  ⟨rfl, List.prefix_append _ _⟩

end Scope

namespace Objects

variable {name : String} {value : Json}

/-- No name is kept without an object. -/
def Sound (o : Objects) : Prop := ∀ p ∈ o.held, p.2 ≠ []

theorem sound_bind {o : Objects} (h : o.Sound) : (o.bind name value).Sound := by
  rcases o with ⟨held⟩
  simp only [Sound, bind] at h ⊢
  induction held with
  | nil => simp [pushTo]
  | cons p rest ih =>
    rcases p with ⟨n, stack⟩
    simp only [List.forall_mem_cons] at h
    simp only [pushTo]
    split
    · simpa using h.2
    · exact List.forall_mem_cons.mpr ⟨h.1, ih h.2⟩

theorem sound_clear {o : Objects} (h : o.Sound) : (o.clear name).Sound := by
  rcases o with ⟨held⟩
  simp only [Sound, clear] at h ⊢
  induction held with
  | nil => simp [popFrom]
  | cons p rest ih =>
    rcases p with ⟨n, stack⟩
    simp only [List.forall_mem_cons] at h
    simp only [popFrom]
    split
    · split
      · simpa using h.2
      · exact h.2
    · exact List.forall_mem_cons.mpr ⟨h.1, ih h.2⟩

theorem get?_bind (o : Objects) : (o.bind name value).get? name = some value := by
  rcases o with ⟨held⟩
  simp only [get?, bind]
  induction held with
  | nil => simp [pushTo]
  | cons p rest ih =>
    rcases p with ⟨n, stack⟩
    by_cases hn : n = name
    · simp [pushTo, hn]
    · have hne : (name == n) = false := by simpa using Ne.symm hn
      simpa [pushTo, hn, List.lookup_cons, hne] using ih

/-- A name that was bound keeps its place, and one that was not leaves no trace. -/
theorem clear_bind {o : Objects} (h : o.Sound) : (o.bind name value).clear name = o := by
  rcases o with ⟨held⟩
  simp only [Sound, clear, bind, Objects.mk.injEq] at h ⊢
  induction held with
  | nil => simp [pushTo, popFrom]
  | cons p rest ih =>
    rcases p with ⟨n, stack⟩
    simp only [List.forall_mem_cons] at h
    simp only [pushTo]
    split
    · next hn =>
      cases stack with
      | nil => exact absurd rfl h.1
      | cons top below => simp [popFrom, hn]
    · next hn => simp [popFrom, hn, ih h.2]

end Objects

namespace Scopes

variable {s t u : Scopes} {scope name value : String}

theorem setNearest?_extends {ss ts : List Scope} (h : setNearest? scope name value ss = some ts) :
    List.Forall₂ Scope.Extended ss ts := by
  induction ss generalizing ts with
  | nil => cases h
  | cons s ss ih =>
    simp only [setNearest?] at h
    split at h
    · cases h
      exact .cons (s.extended_set name value) (List.forall₂_same.mpr fun s _ => .refl s)
    · obtain ⟨rest, hrest, rfl⟩ := Option.map_eq_some_iff.mp h
      exact .cons (.refl s) (ih hrest)

theorem depth_of_mem_hidden {f : Flash} (h : f ∈ s.hidden scope name) : f.depth = s.depth := by
  simp only [hidden] at h
  split at h
  · cases h
  · split at h
    · obtain ⟨_, _, rfl⟩ := List.mem_map.mp h
      rfl
    · cases h

theorem truncate_go_eq (n d : Nat) (h : s.depth = d + n) :
    truncate.go n s = { s with
      opened := s.opened.drop n
      flash := s.flash.filter fun f => f.depth ≤ d ∨ d + n < f.depth } := by
  induction n generalizing s with
  | zero =>
    have hall : s.flash.filter (fun f => f.depth ≤ d ∨ d + 0 < f.depth) = s.flash :=
      List.filter_eq_self.mpr fun f _ => by simpa using (Nat.lt_or_ge d f.depth).symm
    rw [truncate.go, hall, List.drop_zero]
  | succ n ih =>
    rcases s with ⟨_ | ⟨top, rest⟩, feature, flash, objects⟩
    · simp [depth] at h
    · simp only [depth, List.length_cons] at h
      rw [truncate.go, ih (by simp only [pop, depth]; omega)]
      simp only [pop, depth, List.length_cons, List.drop_succ_cons, List.filter_filter]
      congr 1
      apply List.filter_congr
      intro f _
      rw [Bool.eq_iff_iff]
      simp only [Bool.and_eq_true, decide_eq_true_eq, bne_iff_ne, ne_eq]
      omega

/-- Closing scopes down to a depth forgets what was hidden above it. -/
theorem truncate_eq {d : Nat} (h : d ≤ s.depth) :
    s.truncate d = { s with
      opened := s.opened.drop (s.depth - d)
      flash := s.flash.filter fun f => f.depth ≤ d ∨ s.depth < f.depth } := by
  have hd : d + (s.depth - d) = s.depth := Nat.add_sub_cancel' h
  rw [truncate, truncate_go_eq _ d hd.symm]
  simp only [hd]

theorem truncate_of_depth_le {d : Nat} (h : s.depth ≤ d) : s.truncate d = s := by
  rw [truncate, Nat.sub_eq_zero_of_le h, truncate.go]

theorem objects_truncate (s : Scopes) (d : Nat) : (s.truncate d).objects = s.objects := by
  rcases Nat.le_total d s.depth with hd | hd
  · rw [truncate_eq hd]
  · rw [truncate_of_depth_le hd]

/-- What can be done to scopes from outside. -/
inductive Operation where
  | set (scope name value : String)
  | push (scope : Scope)
  | pop
  | truncate (depth : Nat)
  | bind (name : String) (value : Json)
  | clear (name : String)
  | filter (keep : String → String → Bool)
  | reset

namespace Operation

def apply : Operation → Scopes → Scopes
  | set scope name value, s => s.set scope name value
  | push scope, s => s.push scope
  | pop, s => s.pop
  | truncate depth, s => s.truncate depth
  | bind name value, s => s.bindObject name value
  | clear name, s => s.clearObject name
  | filter keep, s => s.filter keep
  | reset, s => s.reset

/-- One operation after the other. -/
def applyAll (ops : List Operation) (s : Scopes) : Scopes :=
  ops.foldl (fun s op => op.apply s) s

/-- Only the feature scope gets a binding more. -/
def Appends (op : Operation) : Prop := ∃ name value, op = .set Scope.featureName name value

/-- A binding is added or a scope opened, but none is closed. -/
def Opens (op : Operation) : Prop :=
  (∃ scope name value, op = .set scope name value) ∨ ∃ scope, op = .push scope

end Operation

/-- What was hidden belongs to a scope that is open, and no object stack is empty. -/
structure Sound (s : Scopes) : Prop where
  hidden : ∀ f ∈ s.flash, f.depth ≤ s.depth
  objects : s.objects.Sound

theorem sound_new : Sound {} := ⟨by simp, by simp [Objects.Sound]⟩

theorem sound_truncate (h : Sound s) (d : Nat) : Sound (s.truncate d) := by
  rcases Nat.le_total d s.depth with hd | hd
  · rw [truncate_eq hd]
    refine ⟨fun f hf => ?_, h.objects⟩
    simp only [List.mem_filter, decide_eq_true_eq] at hf
    have := h.hidden f hf.1
    simp only [depth, List.length_drop] at this hf ⊢
    simp only [depth] at hd
    omega
  · rw [truncate_of_depth_le hd]
    exact h

theorem sound_pop (h : Sound s) : Sound s.pop := by
  rcases s with ⟨_ | ⟨top, rest⟩, feature, flash, objects⟩
  · exact h
  · refine ⟨fun f hf => ?_, h.objects⟩
    simp only [pop, List.mem_filter, bne_iff_ne, ne_eq] at hf
    have := h.hidden f hf.1
    simp only [pop, depth, List.length_cons] at this hf ⊢
    omega

theorem sound_set (h : Sound s) : Sound (s.set scope name value) := by
  unfold set
  split
  · exact ⟨h.hidden, h.objects⟩
  · split
    · exact ⟨fun f hf => Nat.le_succ_of_le (h.hidden f hf), h.objects⟩
    · next opened ho =>
      have hd : opened.length = s.depth := (setNearest?_extends ho).length_eq.symm
      refine ⟨fun f hf => ?_, h.objects⟩
      change f.depth ≤ opened.length
      rw [hd]
      rcases List.mem_append.mp hf with hf | hf
      · exact h.hidden f hf
      · exact Nat.le_of_eq (depth_of_mem_hidden hf)

theorem sound_apply (op : Operation) (h : Sound s) : Sound (op.apply s) := by
  cases op with
  | set => exact sound_set h
  | push => exact ⟨fun f hf => Nat.le_succ_of_le (h.hidden f hf), h.objects⟩
  | pop => exact sound_pop h
  | truncate => exact sound_truncate h _
  | bind => exact ⟨h.hidden, Objects.sound_bind h.objects⟩
  | clear => exact ⟨h.hidden, Objects.sound_clear h.objects⟩
  | filter =>
    refine ⟨fun f hf => ?_, by simp [Operation.apply, filter, Objects.Sound, Objects.empty]⟩
    simpa [Operation.apply, filter, depth] using h.hidden f (List.mem_filter.mp hf).1
  | reset =>
    refine ⟨by simp [Operation.apply, reset], ?_⟩
    simp [Operation.apply, reset, Objects.Sound, Objects.empty]

theorem sound_applyAll (ops : List Operation) (h : Sound s) : Sound (Operation.applyAll ops s) := by
  induction ops generalizing s with
  | nil => exact h
  | cons op ops ih => exact ih (sound_apply op h)

end Scopes

end Gherkin
