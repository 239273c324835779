import Gherkin.Proofs.ScopeOperations

/-! What stays open while operations go on, and what is left when the scopes opened since are closed
again. -/
namespace Gherkin.Scopes

variable {s t u : Scopes} {op : Operation} {ops : List Operation}

/-- Everything is as before, but for bindings added to the feature scope. -/
structure Restored (s t : Scopes) : Prop where
  opened : t.opened = s.opened
  flash : t.flash = s.flash
  objects : t.objects = s.objects
  feature : s.feature.Extended t.feature

/-- The same scopes are open, but for bindings added to them, and the same values are hidden. -/
structure Level (s t : Scopes) : Prop where
  opened : List.Forall₂ Scope.Extended s.opened t.opened
  flash : t.flash = s.flash
  feature : s.feature.Extended t.feature

/-- What was open still is, below scopes opened since, and below the innermost of the old scopes the
same values are hidden. -/
structure Over (s t : Scopes) : Prop where
  depth : s.depth ≤ t.depth
  opened : List.Forall₂ Scope.Extended s.opened (t.opened.drop (t.depth - s.depth))
  flash : t.flash.filter (·.depth < s.depth) = s.flash.filter (·.depth < s.depth)
  feature : s.feature.Extended t.feature

theorem Restored.refl (s : Scopes) : Restored s s := ⟨rfl, rfl, rfl, .refl _⟩

theorem Restored.trans (h₁ : Restored s t) (h₂ : Restored t u) : Restored s u :=
  ⟨h₂.opened.trans h₁.opened, h₂.flash.trans h₁.flash, h₂.objects.trans h₁.objects,
    h₁.feature.trans h₂.feature⟩

theorem Over.refl (s : Scopes) : Over s s := by
  refine ⟨Nat.le_refl _, ?_, rfl, .refl _⟩
  rw [Nat.sub_self, List.drop_zero]
  exact List.forall₂_same.mpr fun s _ => .refl s

theorem Level.over (h : Level s t) : Over s t := by
  have hd : t.depth = s.depth := h.opened.length_eq.symm
  refine ⟨Nat.le_of_eq hd.symm, ?_, by rw [h.flash], h.feature⟩
  rw [hd, Nat.sub_self, List.drop_zero]
  exact h.opened

theorem extended_trans {ss ts us : List Scope} (h₁ : List.Forall₂ Scope.Extended ss ts)
    (h₂ : List.Forall₂ Scope.Extended ts us) : List.Forall₂ Scope.Extended ss us := by
  induction h₁ generalizing us with
  | nil => exact h₂
  | cons hst _ ih =>
    cases h₂ with
    | cons htu h₂ => exact .cons (hst.trans htu) (ih h₂)

theorem filter_flash_below {d e : Nat} (h : d ≤ e) (flash : List Flash) :
    (flash.filter (·.depth < e)).filter (·.depth < d) = flash.filter (·.depth < d) := by
  rw [List.filter_filter]
  apply List.filter_congr
  intro f _
  rw [Bool.eq_iff_iff]
  simp only [Bool.and_eq_true, decide_eq_true_eq]
  omega

theorem Over.trans (h₁ : Over s t) (h₂ : Over t u) : Over s u := by
  have hst := h₁.depth
  have htu := h₂.depth
  refine ⟨Nat.le_trans hst htu, ?_, ?_, h₁.feature.trans h₂.feature⟩
  · have hl := List.forall₂_drop (t.depth - s.depth) h₂.opened
    rw [List.drop_drop, show u.depth - t.depth + (t.depth - s.depth) = u.depth - s.depth by omega]
      at hl
    exact extended_trans h₁.opened hl
  · rw [← filter_flash_below hst, h₂.flash, filter_flash_below hst, h₁.flash]

theorem restored_apply (h : op.Appends) (s : Scopes) : Restored s (op.apply s) := by
  obtain ⟨name, value, rfl⟩ := h
  exact ⟨rfl, rfl, rfl, Scope.extended_set _ _ _⟩

theorem over_push (s : Scopes) (scope : Scope) : Over s (s.push scope) := by
  refine ⟨Nat.le_succ _, ?_, rfl, .refl _⟩
  simp only [push, depth, List.length_cons, Nat.add_sub_cancel_left, List.drop_one, List.tail_cons]
  exact List.forall₂_same.mpr fun s _ => .refl s

theorem over_set (s : Scopes) (scope name value : String) : Over s (s.set scope name value) := by
  unfold set
  split
  · exact Level.over ⟨List.forall₂_same.mpr fun s _ => .refl s, rfl, Scope.extended_set _ _ _⟩
  · split
    · exact over_push _ _
    · next opened ho =>
      have hx := setNearest?_extends ho
      have hd : depth { s with opened, flash := s.flash ++ s.hidden scope name } = s.depth :=
        hx.length_eq.symm
      refine ⟨Nat.le_of_eq hd.symm, ?_, ?_, .refl _⟩
      · rw [hd, Nat.sub_self, List.drop_zero]
        exact hx
      · -- What is hidden now belongs to the innermost scope, not to one below it.
        rw [List.filter_append, List.append_right_eq_self, List.filter_eq_nil_iff]
        intro f hf
        simp [depth_of_mem_hidden hf]

theorem over_apply (h : op.Opens) (s : Scopes) : Over s (op.apply s) := by
  obtain ⟨scope, name, value, rfl⟩ | ⟨scope, rfl⟩ := h
  · exact over_set s scope name value
  · exact over_push s scope

theorem restored_applyAll (h : ∀ op ∈ ops, op.Appends) (s : Scopes) :
    Restored s (Operation.applyAll ops s) := by
  induction ops generalizing s with
  | nil => exact .refl s
  | cons op ops ih =>
    rw [List.forall_mem_cons] at h
    exact (restored_apply h.1 s).trans (ih h.2 _)

theorem over_applyAll (h : ∀ op ∈ ops, op.Opens) (s : Scopes) :
    Over s (Operation.applyAll ops s) := by
  induction ops generalizing s with
  | nil => exact .refl s
  | cons op ops ih =>
    rw [List.forall_mem_cons] at h
    exact (over_apply h.1 s).trans (ih h.2 _)

theorem filter_flash_eq (hs : Sound s) : s.flash.filter (·.depth < s.depth + 1) = s.flash :=
  List.filter_eq_self.mpr fun f hf => by simpa [Nat.lt_succ_iff] using hs.hidden f hf

/-- Closing a scope and all that was opened over it. -/
theorem level_truncate {scope : Scope} (hs : Sound s) (ht : Sound t) (h : Over (s.push scope) t) :
    Level s (t.truncate s.depth) := by
  have hd : s.depth + 1 ≤ t.depth := h.depth
  rw [truncate_eq (by omega)]
  refine ⟨?_, ?_, h.feature⟩
  · have hl := List.forall₂_drop 1 h.opened
    rw [List.drop_drop, show t.depth - (s.push scope).depth + 1 = t.depth - s.depth from by
      simp only [push, depth, List.length_cons] at hd ⊢; omega] at hl
    exact hl
  · have hf : t.flash.filter (·.depth < s.depth + 1) = s.flash :=
      h.flash.trans (filter_flash_eq hs)
    rw [← hf]
    apply List.filter_congr
    intro f hmem
    have := ht.hidden f hmem
    rw [decide_eq_decide]
    omega

theorem restored_truncate {scope : Scope} (hs : Sound s) (h : Restored (s.push scope) t) :
    Restored s (t.truncate s.depth) := by
  have hd : t.depth = s.depth + 1 := congrArg List.length h.opened
  rw [truncate_eq (by omega)]
  refine ⟨?_, ?_, h.objects, h.feature⟩
  · rw [hd, Nat.add_sub_cancel_left, h.opened]
    rfl
  · rw [h.flash]
    apply List.filter_eq_self.mpr
    intro f hf
    simpa using Or.inl (hs.hidden f hf)

theorem restored_clearObject {name : String} {value : Json} (hs : Sound s)
    (h : Restored (s.bindObject name value) t) : Restored s (t.clearObject name) := by
  refine ⟨h.opened, h.flash, ?_, h.feature⟩
  simp only [clearObject, h.objects]
  exact Objects.clear_bind hs.objects

/-- Opening a scope and closing it again. -/
theorem truncate_push (h : Sound s) (scope : Scope) : (s.push scope).truncate s.depth = s := by
  have hd : (s.push scope).depth = s.depth + 1 := rfl
  have hflash : s.flash.filter (fun f => f.depth ≤ s.depth ∨ s.depth + 1 < f.depth) = s.flash :=
    List.filter_eq_self.mpr fun f hf => by simpa using Or.inl (h.hidden f hf)
  rw [truncate_eq (by omega), hd, Nat.add_sub_cancel_left]
  simp only [push, hflash, List.drop_one, List.tail_cons]

/-- Binding an object and clearing it again. -/
theorem clearObject_bindObject (h : Sound s) (name : String) (value : Json) :
    (s.bindObject name value).clearObject name = s := by
  simp only [clearObject, bindObject, Objects.clear_bind h.objects]

end Gherkin.Scopes
