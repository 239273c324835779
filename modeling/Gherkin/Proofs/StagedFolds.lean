import Gherkin.Feature
import Gherkin.Proofs.Verdict

/-! Statuses folded in stages: the parts of each group first, and then what the groups come to. The
verdict is that of the flat fold, and no time is lost but that of groups which were skipped or are
pending in the end. -/
namespace Gherkin.Status

variable {parts : List Status} {groups : List (List Status)} {s : Status}

/-- Only such a status tells a time. -/
def Timed (s : Status) : Prop := s.isPassed = true ∨ s.isFailed = true

instance (s : Status) : Decidable s.Timed := inferInstanceAs (Decidable (_ ∨ _))

/-- The nanoseconds that the parts tell together, without a bound. -/
def time (parts : List Status) : Nat := Duration.total (parts.map duration)

theorem duration_of_not_timed (h : ¬ s.Timed) : s.duration = Duration.zero := by
  cases s <;> simp_all [Timed, isPassed, isFailed, duration]

theorem timed_congr {t : Status} (h : SameVerdict s t) : s.Timed ↔ t.Timed := by
  obtain ⟨hkeyword, -, -⟩ := h
  cases s <;> cases t <;> simp_all [Timed, isPassed, isFailed, keyword]

theorem time_append (ps qs : List Status) : time (ps ++ qs) = time ps + time qs := by
  rw [time, List.map_append, Duration.total_append]
  rfl

theorem time_cons (s : Status) (parts : List Status) :
    time (s :: parts) = s.duration.nanos + time parts := rfl

theorem time_eq_zero (h : ∀ p ∈ parts, ¬ p.Timed) : time parts = 0 := by
  induction parts with
  | nil => rfl
  | cons p parts ih =>
    obtain ⟨hp, hparts⟩ := List.forall_mem_cons.mp h
    rw [time_cons, ih hparts, duration_of_not_timed hp]
    rfl

theorem time_le_flatten {g : List Status} (h : g ∈ groups) : time g ≤ time groups.flatten := by
  obtain ⟨before, after, rfl⟩ := List.append_of_mem h
  rw [List.flatten_append, List.flatten_cons, time_append, time_append]
  omega

theorem fold?_eq_some (h : time parts < durationLimit) : fold? parts = some (fold parts) := by
  have hsum := Duration.sum?_eq_some h
  rw [fold?, hsum, Option.map_some, fold, Duration.sum_eq_of_sum? hsum]

theorem duration_fold_of_timed (h : (fold parts).Timed) :
    (fold parts).duration = Duration.sum (parts.map duration) := by
  revert h
  unfold fold verdict
  split
  · simp [Timed, isPassed, isFailed]
  · split
    · exact fun _ => rfl
    · split
      · simp [Timed, isPassed, isFailed]
      · exact fun _ => rfl
      · simp [Timed, isPassed, isFailed]
      · simp [Timed, isPassed, isFailed]

theorem nanos_fold_le (parts : List Status) : (fold parts).duration.nanos ≤ time parts := by
  by_cases h : (fold parts).Timed
  · rw [duration_fold_of_timed h]
    exact Duration.nanos_sum_le _
  · rw [duration_of_not_timed h]
    exact Nat.zero_le _

theorem nanos_fold_of_timed (h : (fold parts).Timed) (hsmall : time parts < durationLimit) :
    (fold parts).duration.nanos = time parts := by
  rw [duration_fold_of_timed h, Duration.sum_eq_of_sum? (Duration.sum?_eq_some hsmall)]
  rfl

theorem findSome?_cause?_map_fold (groups : List (List Status)) :
    (groups.map fold).findSome? cause? = groups.flatten.findSome? cause? := by
  induction groups with
  | nil => rfl
  | cons g groups ih =>
    rw [List.map_cons, List.findSome?_cons, cause?_fold, ih, List.flatten_cons,
      List.findSome?_append]
    cases g.findSome? cause? <;> rfl

/-- Without a failure, a group counts as much as its last part that is not merely registered. -/
theorem last?_fold (hne : parts ≠ []) (hcause : parts.findSome? cause? = none) :
    last? [fold parts] = last? parts := by
  have hfold := untimed_verdict_eq (Duration.sum (parts.map duration)) hne
  change (fold parts).untimed = _ at hfold
  rw [hcause] at hfold
  unfold last? at hfold ⊢
  rcases hlast : (parts.filter (· != loaded)).getLast? with _ | p <;> rw [hlast] at hfold
  · cases hf : fold parts <;> simp_all [untimed]
  · obtain ⟨hmem, hloaded⟩ := List.mem_filter.mp (List.mem_of_getLast? hlast)
    have hnone := List.findSome?_eq_none_iff.mp hcause p hmem
    cases p <;> simp [cause?] at hnone hloaded <;>
      cases hf : fold parts <;> simp_all [untimed]

theorem last?_map_fold (hne : ∀ g ∈ groups, g ≠ [])
    (hcause : groups.flatten.findSome? cause? = none) :
    last? (groups.map fold) = last? groups.flatten := by
  induction groups with
  | nil => rfl
  | cons g groups ih =>
    obtain ⟨hg, hgroups⟩ := List.forall_mem_cons.mp hne
    rw [List.flatten_cons, List.findSome?_append, Option.or_eq_none_iff] at hcause
    rw [List.map_cons, ← List.singleton_append, last?_append, List.flatten_cons, last?_append,
      ih hgroups hcause.2, last?_fold hg hcause.1]

theorem sameVerdict_map_fold (hne : ∀ g ∈ groups, g ≠ []) :
    SameVerdict (fold (groups.map fold)) (fold groups.flatten) := by
  cases hcause : groups.flatten.findSome? cause? with
  | some c =>
    refine .of_cause (c := c) ?_ ?_
    · rw [cause?_fold, findSome?_cause?_map_fold, hcause]
    · rw [cause?_fold, hcause]
  | none =>
    cases groups with
    | nil => exact .refl _
    | cons g groups =>
      have hg := hne g List.mem_cons_self
      exact .verdict _ _ (by simp) (by simp [hg]) (findSome?_cause?_map_fold _)
        (last?_map_fold hne hcause)

/-- The verdict on a feature is that on all steps at once, if no scenario is without steps. -/
theorem sameVerdict_feature (f : Feature) (h : ∀ s ∈ f.scenarios, s.allSteps ≠ []) :
    SameVerdict f.status (fold ((f.scenarios.flatMap (·.allSteps)).map (·.status))) := by
  have hne : ∀ g ∈ f.scenarios.map fun s => s.allSteps.map (·.status), g ≠ [] := by
    simpa using h
  have hsame := sameVerdict_map_fold hne
  rwa [List.map_map, ← List.flatMap_def, ← List.map_flatMap] at hsame

theorem time_map_fold_le (groups : List (List Status)) :
    time (groups.map fold) ≤ time groups.flatten := by
  induction groups with
  | nil => exact Nat.le_refl _
  | cons g groups ih =>
    rw [List.map_cons, time_cons, List.flatten_cons, time_append]
    exact Nat.add_le_add (nanos_fold_le g) ih

/-- No time is lost in a group that tells its time, or in which there is none to tell. -/
theorem time_map_fold_eq (hsmall : time groups.flatten < durationLimit)
    (h : ∀ g ∈ groups, (fold g).Timed ∨ ∀ p ∈ g, ¬ p.Timed) :
    time (groups.map fold) = time groups.flatten := by
  induction groups with
  | nil => rfl
  | cons g groups ih =>
    obtain ⟨hg, hgroups⟩ := List.forall_mem_cons.mp h
    rw [List.flatten_cons, time_append] at hsmall
    have hnanos : (fold g).duration.nanos = time g := by
      rcases hg with ht | hnone
      · exact nanos_fold_of_timed ht (by omega)
      · have hle := nanos_fold_le g
        rw [time_eq_zero hnone] at hle ⊢
        exact Nat.le_zero.mp hle
    rw [List.map_cons, time_cons, List.flatten_cons, time_append, hnanos, ih (by omega) hgroups]

/-- The time of two statuses with one verdict is ordered as the time of their parts. -/
theorem nanos_fold_le_of_sameVerdict {ps qs : List Status} (h : SameVerdict (fold ps) (fold qs))
    (hle : time ps ≤ time qs) (hsmall : time qs < durationLimit) :
    (fold ps).duration.nanos ≤ (fold qs).duration.nanos := by
  by_cases ht : (fold ps).Timed
  · rw [nanos_fold_of_timed ht (by omega), nanos_fold_of_timed ((timed_congr h).mp ht) hsmall]
    exact hle
  · rw [duration_of_not_timed ht]
    exact Nat.zero_le _

theorem mapM_fold?_eq_some (hsmall : time groups.flatten < durationLimit) :
    groups.mapM fold? = some (groups.map fold) := by
  have hgroup : ∀ g ∈ groups, fold? g = some (fold g) := fun g hg =>
    fold?_eq_some (Nat.lt_of_le_of_lt (time_le_flatten hg) hsmall)
  clear hsmall
  induction groups with
  | nil => rfl
  | cons g groups ih =>
    obtain ⟨hg, hgroups⟩ := List.forall_mem_cons.mp hgroup
    rw [List.mapM_cons, hg, ih hgroups]
    rfl

/-- Folding in stages gives the verdict of the flat fold. It tells at most the time of the flat
fold, and all of it if each group either passed or failed, or has no part that did. A failure stands,
whatever else is folded after it. -/
theorem staged_fold_agrees :
    (∀ groups : List (List Status), (∀ g ∈ groups, g ≠ []) →
      time groups.flatten < durationLimit →
      ∃ staged flat, (groups.mapM fold?).bind fold? = some staged ∧
        fold? groups.flatten = some flat ∧ SameVerdict staged flat ∧
        staged.duration.nanos ≤ flat.duration.nanos ∧
        ((∀ g ∈ groups, (∃ s, fold? g = some s ∧ s.Timed) ∨ ∀ p ∈ g, ¬ p.Timed) →
          staged.duration = flat.duration)) ∧
    ∀ (parts rest : List Status) (d : Duration) (cause : String),
      fold? parts = some (failed d cause) → time (parts ++ rest) < durationLimit →
      ∃ e, fold? (parts ++ rest) = some (failed e cause) := by
  refine ⟨fun groups hne hsmall => ?_, fun parts rest d cause hfailed hsmall => ?_⟩
  · have hle := time_map_fold_le groups
    have hsame := sameVerdict_map_fold hne
    refine ⟨fold (groups.map fold), fold groups.flatten, ?_, fold?_eq_some hsmall, hsame,
      nanos_fold_le_of_sameVerdict hsame hle hsmall, fun htimed => ?_⟩
    · rw [mapM_fold?_eq_some hsmall]
      exact fold?_eq_some (by omega)
    · have heq : time (groups.map fold) = time groups.flatten := by
        refine time_map_fold_eq hsmall fun g hg => (htimed g hg).imp_left ?_
        rintro ⟨s, hs, ht⟩
        rwa [fold_eq_of_fold? hs]
      refine Duration.eq_of_nanos (Nat.le_antisymm ?_ ?_)
      · exact nanos_fold_le_of_sameVerdict hsame hle hsmall
      · exact nanos_fold_le_of_sameVerdict hsame.symm (Nat.le_of_eq heq.symm) (by omega)
  · have hcause : (fold (parts ++ rest)).cause? = some cause := by
      have hparts : (fold parts).cause? = some cause := by rw [fold_eq_of_fold? hfailed]; rfl
      rw [cause?_fold] at hparts ⊢
      rw [List.findSome?_append, hparts, Option.some_or]
    rw [fold?_eq_some hsmall]
    cases hf : fold (parts ++ rest) <;> simp_all [cause?]

/-- Groups of which one passed, one was skipped and one failed. -/
def mixedGroups : List (List Status) :=
  [[passed (.ofNanos 3)], [skipped, loaded],
    [passed (.ofNanos 2), failed (.ofNanos 5) "refused", skipped]]

theorem staged_fold_agrees_mixed :
    (∃ staged flat, (mixedGroups.mapM fold?).bind fold? = some staged ∧
      fold? mixedGroups.flatten = some flat ∧ SameVerdict staged flat ∧
      staged.duration = flat.duration) ∧
    ∃ e, fold? ([failed (.ofNanos 5) "refused"] ++ [pending, failed (.ofNanos 1) "late"]) =
      some (failed e "refused") := by
  obtain ⟨hstaged, hextended⟩ := staged_fold_agrees
  have htimed : ∀ g ∈ mixedGroups,
      (∃ s, fold? g = some s ∧ s.Timed) ∨ ∀ p ∈ g, ¬ p.Timed := by
    intro g hg
    simp only [mixedGroups, List.mem_cons, List.not_mem_nil, or_false] at hg
    obtain rfl | rfl | rfl := hg
    · exact .inl ⟨_, rfl, by decide⟩
    · exact .inr (by decide)
    · exact .inl ⟨_, rfl, by decide⟩
  obtain ⟨staged, flat, hs, hf, hsame, -, heq⟩ := hstaged mixedGroups (by decide) (by decide)
  exact ⟨⟨staged, flat, hs, hf, hsame, heq htimed⟩,
    hextended [failed (.ofNanos 5) "refused"] _ (.ofNanos 5) "refused" rfl (by decide)⟩

/-- The time of a group that was skipped in the end is lost. -/
example : (fold [fold [passed (.ofNanos 3), skipped], passed (.ofNanos 5)]).duration.nanos = 5 ∧
    (fold [passed (.ofNanos 3), skipped, passed (.ofNanos 5)]).duration.nanos = 8 := by decide

end Gherkin.Status
