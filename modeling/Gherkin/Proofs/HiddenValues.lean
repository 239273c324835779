import Gherkin.Proofs.ScopeOperations

/-! Where the values that were hidden are still bound. -/
namespace Gherkin

namespace Pairs

variable {name value : String} {p : String × String} {ps qs : Pairs}

theorem mem_put (h : p ∈ put name value ps) : p = (name, value) ∨ p ∈ ps := by
  induction ps with
  | nil => exact Or.inl (List.mem_singleton.mp h)
  | cons q ps ih =>
    simp only [put] at h
    split at h
    · rcases List.mem_cons.mp h with rfl | h
      · exact Or.inl rfl
      · exact Or.inr (List.mem_cons_of_mem _ h)
    · rcases List.mem_cons.mp h with rfl | h
      · exact Or.inr List.mem_cons_self
      · exact (ih h).imp id (List.mem_cons_of_mem _)

theorem mem_putAll (h : p ∈ putAll ps qs) : p ∈ ps ∨ p ∈ qs := by
  induction qs generalizing ps with
  | nil => exact Or.inl h
  | cons q qs ih =>
    rcases ih h with h | h
    · rcases mem_put h with rfl | h
      · exact Or.inr List.mem_cons_self
      · exact Or.inl h
    · exact Or.inr (List.mem_cons_of_mem _ h)

end Pairs

theorem Scope.mem_bindings_of_mem_visible {s : Scope} {p : String × String} (h : p ∈ s.visible) :
    p ∈ s.bindings :=
  (Pairs.mem_putAll h).resolve_left List.not_mem_nil

namespace Flash

variable {f : Flash} {scope : Scope} {opened others : List Scope}

/-- The value is bound, under its name, in the scope at its depth among those open. -/
def Within (f : Flash) (opened : List Scope) : Prop :=
  1 ≤ f.depth ∧ f.depth ≤ opened.length ∧
    ∃ scope, opened.reverse[f.depth - 1]? = some scope ∧ scope.name = f.scope ∧
      (f.name, f.value) ∈ scope.bindings

theorem Within.push (h : f.Within opened) (scope : Scope) : f.Within (scope :: opened) := by
  obtain ⟨hpos, hle, held, hget, hholds⟩ := h
  refine ⟨hpos, Nat.le_succ_of_le hle, held, ?_, hholds⟩
  rw [List.reverse_cons, List.getElem?_append_left (by rw [List.length_reverse]; omega), hget]

theorem Within.pop (h : f.Within (scope :: opened)) (hd : f.depth ≠ opened.length + 1) :
    f.Within opened := by
  obtain ⟨hpos, hle, held, hget, hholds⟩ := h
  rw [List.length_cons] at hle
  refine ⟨hpos, by omega, held, ?_, hholds⟩
  rwa [List.reverse_cons, List.getElem?_append_left (by rw [List.length_reverse]; omega)] at hget

theorem Within.extended (h : f.Within opened) (hx : List.Forall₂ Scope.Extended opened others) :
    f.Within others := by
  obtain ⟨hpos, hle, held, hget, hname, hholds⟩ := h
  have hr := List.rel_reverse hx
  obtain ⟨hlt, rfl⟩ := List.getElem?_eq_some_iff.mp hget
  have hlt' : f.depth - 1 < others.reverse.length := hr.length_eq ▸ hlt
  have hext := hr.get hlt hlt'
  exact ⟨hpos, hx.length_eq ▸ hle, _, List.getElem?_eq_getElem hlt', hext.1.trans hname,
    hext.2.subset hholds⟩

theorem Within.filter {keep : String → String → Bool} (h : f.Within opened)
    (hk : keep f.name f.value) : f.Within (opened.map (·.filter keep)) := by
  obtain ⟨hpos, hle, held, hget, hname, hholds⟩ := h
  refine ⟨hpos, by rwa [List.length_map], held.filter keep, ?_, hname, ?_⟩
  · rw [← List.map_reverse, List.getElem?_map, hget, Option.map_some]
  · exact List.mem_filter.mpr ⟨hholds, hk⟩

end Flash

namespace Scopes

variable {s : Scopes} {scope name value : String}

theorem within_of_mem_hidden {f : Flash} (h : f ∈ s.hidden scope name) : f.Within s.opened := by
  have hdepth := depth_of_mem_hidden h
  unfold hidden at h
  split at h
  · cases h
  · next top rest ho =>
    split at h
    · next hname =>
      obtain ⟨p, hp, rfl⟩ := List.mem_map.mp h
      have hvisible := (List.mem_filter.mp hp).1
      simp only [Flash.Within, depth, ho, List.length_cons, List.reverse_cons, Nat.add_sub_cancel]
      refine ⟨Nat.le_add_left _ _, Nat.le_refl _, top, ?_, eq_of_beq hname,
        Scope.mem_bindings_of_mem_visible hvisible⟩
      rw [List.getElem?_append_right (by simp), List.length_reverse, Nat.sub_self]
      rfl
    · cases h

/-- Hidden values are bound in scopes still open, those of outer scopes first. -/
structure Flashed (s : Scopes) : Prop where
  within : ∀ f ∈ s.flash, f.Within s.opened
  sorted : s.flash.Pairwise (·.depth ≤ ·.depth)

theorem flashed_new : Flashed new := ⟨fun _ h => absurd h List.not_mem_nil, .nil⟩

theorem flashed_set (h : Flashed s) : Flashed (s.set scope name value) := by
  unfold set
  split
  · exact ⟨h.within, h.sorted⟩
  · split
    · exact ⟨fun f hf => (h.within f hf).push _, h.sorted⟩
    · next opened ho =>
      have hx := setNearest?_extends ho
      refine ⟨fun f hf => ?_, List.pairwise_append.mpr ⟨h.sorted, ?_, fun f hf g hg => ?_⟩⟩
      · rcases List.mem_append.mp hf with hf | hf
        · exact (h.within f hf).extended hx
        · exact (within_of_mem_hidden hf).extended hx
      · refine List.pairwise_of_forall_mem_list fun f hf g hg => ?_
        exact Nat.le_of_eq ((depth_of_mem_hidden hf).trans (depth_of_mem_hidden hg).symm)
      · rw [depth_of_mem_hidden hg]
        exact (h.within f hf).2.1

theorem flashed_pop (h : Flashed s) : Flashed s.pop := by
  rcases s with ⟨_ | ⟨top, rest⟩, feature, flash, objects⟩
  · exact h
  · refine ⟨fun f hf => ?_, h.sorted.filter _⟩
    obtain ⟨hmem, hne⟩ := List.mem_filter.mp hf
    exact (h.within f hmem).pop (bne_iff_ne.mp hne)

theorem flashed_truncate_go (n : Nat) (h : Flashed s) : Flashed (truncate.go n s) := by
  induction n generalizing s with
  | zero => exact h
  | succ n ih => exact ih (flashed_pop h)

theorem flashed_filter (keep : String → String → Bool) (h : Flashed s) :
    Flashed (s.filter keep) := by
  refine ⟨fun f hf => ?_, h.sorted.filter _⟩
  obtain ⟨hmem, hk⟩ := List.mem_filter.mp hf
  exact (h.within f hmem).filter hk

theorem flashed_apply (op : Operation) (h : Flashed s) : Flashed (op.apply s) := by
  cases op with
  | set => exact flashed_set h
  | push => exact ⟨fun f hf => (h.within f hf).push _, h.sorted⟩
  | pop => exact flashed_pop h
  | truncate => exact flashed_truncate_go _ h
  | bind => exact ⟨h.within, h.sorted⟩
  | clear => exact ⟨h.within, h.sorted⟩
  | filter keep => exact flashed_filter keep h
  | reset => exact ⟨fun _ h => absurd h List.not_mem_nil, .nil⟩

theorem flashed_applyAll (ops : List Operation) (h : Flashed s) :
    Flashed (Operation.applyAll ops s) := by
  induction ops generalizing s with
  | nil => exact h
  | cons op ops ih => exact ih (flashed_apply op h)

theorem depth_of_mem_flash_pop (h : Flashed s) {f : Flash} (hf : f ∈ s.pop.flash) :
    f.depth < s.depth := by
  rcases s with ⟨_ | ⟨top, rest⟩, feature, flash, objects⟩
  · obtain ⟨hpos, hle, _⟩ := h.within f hf
    exact absurd (Nat.le_trans hpos hle) (Nat.not_succ_le_zero _)
  · exact Nat.lt_succ_of_le ((flashed_pop h).within f hf).2.1

/-- A sorted list of depths ends with those that are greatest. -/
theorem filter_append_filter_depth {d : Nat} {flash : List Flash}
    (hs : flash.Pairwise (·.depth ≤ ·.depth)) (hd : ∀ f ∈ flash, f.depth ≤ d) :
    flash.filter (·.depth != d) ++ flash.filter (·.depth == d) = flash := by
  induction flash with
  | nil => rfl
  | cons f rest ih =>
    obtain ⟨hf, hs⟩ := List.pairwise_cons.mp hs
    obtain ⟨hfd, hd⟩ := List.forall_mem_cons.mp hd
    by_cases he : f.depth = d
    · -- Nothing after the first of the greatest depth is any less deep.
      have hall : ∀ g ∈ f :: rest, g.depth = d := List.forall_mem_cons.mpr
        ⟨he, fun g hg => Nat.le_antisymm (hd g hg) (he ▸ hf g hg)⟩
      rw [List.filter_eq_nil_iff.mpr fun g hg => by simp [hall g hg],
        List.filter_eq_self.mpr fun g hg => by simp [hall g hg], List.nil_append]
    · rw [List.filter_cons_of_pos (by simpa using he), List.filter_cons_of_neg (by simpa using he),
        List.cons_append, ih hs hd]

theorem flash_eq_pop_append (h : Flashed s) :
    s.flash = s.pop.flash ++ s.flash.filter (·.depth == s.depth) := by
  have hle : ∀ f ∈ s.flash, f.depth ≤ s.depth := fun f hf => (h.within f hf).2.1
  rcases s with ⟨_ | ⟨top, rest⟩, feature, flash, objects⟩
  · have hnil : flash = [] := List.eq_nil_iff_forall_not_mem.mpr fun f hf =>
      absurd (Nat.le_trans (h.within f hf).1 (hle f hf)) (Nat.not_succ_le_zero _)
    subst hnil
    rfl
  · exact (filter_append_filter_depth h.sorted hle).symm

/-- After any operations the values hidden are bound in scopes still open, those of outer scopes
first, so that closing a scope cuts off the end of the list, and with no scope open none is left. -/
theorem hidden_values_of_open_scopes (ops : List Operation) :
    let s := Operation.applyAll ops new
    (∀ f ∈ s.flash, f.Within s.opened) ∧
    s.flash.Pairwise (·.depth ≤ ·.depth) ∧
    (∃ removed, s.flash = s.pop.flash ++ removed ∧ (∀ f ∈ removed, f.depth = s.depth) ∧
      ∀ f ∈ s.pop.flash, f.depth < s.depth) ∧
    (s.opened = [] → s.flash = []) := by
  intro s
  have h : Flashed s := flashed_applyAll ops flashed_new
  refine ⟨h.within, h.sorted, ⟨_, flash_eq_pop_append h, fun f hf => ?_,
    fun f hf => depth_of_mem_flash_pop h hf⟩, fun hnone => ?_⟩
  · exact eq_of_beq (List.mem_filter.mp hf).2
  · refine List.eq_nil_iff_forall_not_mem.mpr fun f hf => ?_
    obtain ⟨hpos, hle, _⟩ := h.within f hf
    rw [hnone] at hle
    exact absurd (Nat.le_trans hpos hle) (Nat.not_succ_le_zero _)

end Scopes

end Gherkin
