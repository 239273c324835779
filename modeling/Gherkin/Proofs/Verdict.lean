import Gherkin.Status

/-! What the status of a whole still tells of its parts. -/
namespace Gherkin.Status

variable {parts : List Status} {s : Status}

/-- Performed or skipped: neither waiting nor merely registered. -/
def Settled (s : Status) : Prop := s ≠ pending ∧ s ≠ loaded

@[simp] theorem settled_passed (d : Duration) : Settled (passed d) := by simp [Settled]

@[simp] theorem settled_failed (d : Duration) (c : String) : Settled (failed d c) := by
  simp [Settled]

@[simp] theorem settled_skipped : Settled skipped := by simp [Settled]

theorem settled_of_performed (h : s.isPassed = true ∨ s.isFailed = true) : Settled s := by
  cases s <;> simp_all [isPassed, isFailed]

theorem exitCode_eq_one_iff (h : s ≠ pending) : s.exitCode = 1 ↔ s.isFailed = true := by
  cases s <;> simp_all [exitCode, isFailed]

theorem cases_of_not_failed (h : s ≠ pending) (hf : s.isFailed = false) :
    (∃ d, s = passed d) ∨ s = skipped ∨ s = loaded := by
  cases s <;> simp_all [isFailed]

@[simp] theorem cause?_fold : (fold parts).cause? = parts.findSome? cause? := by
  simp only [fold, verdict]
  split
  · next he => simp [List.isEmpty_iff.mp he, cause?]
  · split
    · next c hc => simp [hc, cause?]
    · next hc =>
      rw [hc]
      split <;> rfl

/-- A failure survives the fold, and none comes from it. -/
theorem isFailed_fold : (fold parts).isFailed = true ↔ ∃ p ∈ parts, p.isFailed = true := by
  rw [isFailed_iff_cause?, cause?_fold]
  constructor
  · rintro ⟨c, hc⟩
    obtain ⟨p, hp, hpc⟩ := List.exists_of_findSome?_eq_some hc
    exact ⟨p, hp, isFailed_iff_cause?.mpr ⟨c, hpc⟩⟩
  · rintro ⟨p, hp, hf⟩
    obtain ⟨c, hc⟩ := isFailed_iff_cause?.mp hf
    exact Option.isSome_iff_exists.mp (List.findSome?_isSome_iff.mpr ⟨p, hp, by simp [hc]⟩)

theorem isFailed_fold_concat (parts : List Status) (p : Status) :
    (fold (parts ++ [p])).isFailed = ((fold parts).isFailed || p.isFailed) := by
  rw [Bool.eq_iff_iff, Bool.or_eq_true, isFailed_fold, isFailed_fold]
  simp only [List.mem_append, List.mem_singleton, or_and_right, exists_or, exists_eq_left]

theorem fold_ne_pending (h : ∀ p ∈ parts, p ≠ pending) : fold parts ≠ pending := by
  simp only [fold, verdict]
  split
  · simp
  · split
    · simp
    · next hc =>
      split <;> try simp
      next p hpassed hskipped hl =>
      have hm := List.mem_filter.mp (List.mem_of_getLast? hl)
      have hcause := List.findSome?_eq_none_iff.mp hc p hm.1
      have hne := h p hm.1
      cases p <;> simp_all [cause?]

theorem fold_ne_loaded (h : ∀ p ∈ parts, p ≠ loaded) : fold parts ≠ loaded := by
  simp only [fold, verdict]
  split
  · simp
  · next he =>
    have hf : parts.filter (· != loaded) = parts := by simpa using h
    split
    · simp
    · rw [hf]
      split <;> simp_all

theorem fold_loaded (hne : parts ≠ []) (h : ∀ p ∈ parts, p = loaded) : fold parts = loaded := by
  have hcause : parts.findSome? cause? = none :=
    List.findSome?_eq_none_iff.mpr fun p hp => by simp [h p hp, cause?]
  have hfilter : parts.filter (· != loaded) = [] :=
    List.filter_eq_nil_iff.mpr fun p hp => by simp [h p hp]
  simp [fold, verdict, hne, hcause, hfilter]

theorem settled_fold (h : ∀ p ∈ parts, Settled p) : Settled (fold parts) :=
  ⟨fold_ne_pending fun p hp => (h p hp).1, fold_ne_loaded fun p hp => (h p hp).2⟩

/-- The status without the time it tells. -/
def untimed : Status → Status
  | passed _ => passed Duration.zero
  | failed _ c => failed Duration.zero c
  | s => s

@[simp] theorem cause?_untimed (s : Status) : s.untimed.cause? = s.cause? := by
  cases s <;> rfl

@[simp] theorem isFailed_untimed (s : Status) : s.untimed.isFailed = s.isFailed := by
  cases s <;> rfl

@[simp] theorem untimed_untimed (s : Status) : s.untimed.untimed = s.untimed := by
  cases s <;> rfl

theorem untimed_ne_loaded (s : Status) : (s.untimed != loaded) = (s != loaded) := by
  cases s <;> rfl

/-- The last part that is not merely registered, without the time it tells. -/
def last? (parts : List Status) : Option Status :=
  ((parts.filter (· != loaded)).getLast?).map untimed

@[simp] theorem last?_nil : last? [] = none := rfl

@[simp] theorem last?_loaded : last? [loaded] = none := rfl

theorem last?_append (ps qs : List Status) : last? (ps ++ qs) = (last? qs).or (last? ps) := by
  rw [last?, List.filter_append, List.getLast?_append, Option.map_or]
  rfl

theorem last?_isSome {p : Status} (hp : p ∈ parts) (hne : p ≠ loaded) :
    (last? parts).isSome = true := by
  rw [last?, Option.isSome_map, List.getLast?_isSome]
  exact List.ne_nil_of_mem (List.mem_filter.mpr ⟨hp, by simpa using hne⟩)

theorem last?_map_untimed (parts : List Status) : last? (parts.map untimed) = last? parts := by
  simp [last?, List.filter_map, Function.comp_def, untimed_ne_loaded]

/-- But for its time, a verdict tells the first cause, or else what the last part comes to. -/
theorem untimed_verdict_eq (d : Duration) (h : parts ≠ []) :
    (verdict parts d).untimed =
      match parts.findSome? cause?, last? parts with
      | some c, _ => failed Duration.zero c
      | none, none => loaded
      | none, some (passed _) => passed Duration.zero
      | none, some skipped => skipped
      | none, some _ => pending := by
  simp only [verdict, List.isEmpty_iff, h, if_false, last?]
  cases parts.findSome? cause? with
  | some c => rfl
  | none =>
    rcases (parts.filter (· != loaded)).getLast? with _ | p
    · rfl
    · cases p <;> rfl

theorem untimed_verdict (parts : List Status) (d e : Duration) :
    (verdict (parts.map untimed) d).untimed = (verdict parts e).untimed := by
  cases parts with
  | nil => rfl
  | cons p parts =>
    have hcause : ((p :: parts).map untimed).findSome? cause? = (p :: parts).findSome? cause? := by
      simp [List.findSome?_map, Function.comp_def, List.findSome?_cons]
    rw [untimed_verdict_eq d (by simp), untimed_verdict_eq e (by simp), hcause, last?_map_untimed]

/-- The time that the parts tell does not matter to what the whole tells besides time. -/
theorem untimed_fold {ps qs : List Status} (h : ps.map untimed = qs.map untimed) :
    (fold ps).untimed = (fold qs).untimed := by
  have hps := untimed_verdict ps Duration.zero (Duration.sum (ps.map duration))
  have hqs := untimed_verdict qs Duration.zero (Duration.sum (qs.map duration))
  rw [h] at hps
  exact hps.symm.trans hqs

/-- Two statuses that differ at most in the time they tell. -/
structure SameVerdict (s t : Status) : Prop where
  keyword : s.keyword = t.keyword
  cause : s.cause? = t.cause?
  exitCode : s.exitCode = t.exitCode

namespace SameVerdict

theorem refl (s : Status) : SameVerdict s s := ⟨rfl, rfl, rfl⟩

theorem symm {s t : Status} (h : SameVerdict s t) : SameVerdict t s :=
  ⟨h.keyword.symm, h.cause.symm, h.exitCode.symm⟩

theorem trans {s t u : Status} (h : SameVerdict s t) (h' : SameVerdict t u) : SameVerdict s u :=
  ⟨h.keyword.trans h'.keyword, h.cause.trans h'.cause, h.exitCode.trans h'.exitCode⟩

theorem of_cause {s t : Status} {c : String} (hs : s.cause? = some c) (ht : t.cause? = some c) :
    SameVerdict s t := by
  cases s <;> cases t <;> simp_all [cause?]
  exact ⟨rfl, rfl, rfl⟩

theorem of_untimed {s t : Status} (h : s.untimed = t.untimed) : SameVerdict s t := by
  cases s <;> cases t <;> simp [untimed] at h
  all_goals exact ⟨rfl, by simp [cause?, h], rfl⟩

/-- After a failure the verdict stands. -/
theorem fold_append {parts rest rest' : List Status} (h : ∃ p ∈ parts, p.isFailed = true) :
    SameVerdict (fold (parts ++ rest)) (fold (parts ++ rest')) := by
  obtain ⟨c, hc⟩ := isFailed_iff_cause?.mp (isFailed_fold.mpr h)
  rw [cause?_fold] at hc
  exact of_cause (c := c) (by simp [hc]) (by simp [hc])

/-- The verdict rests on the first failure and the last part that is not merely registered. -/
theorem verdict {ps qs : List Status} (d e : Duration) (hps : ps ≠ []) (hqs : qs ≠ [])
    (hcause : ps.findSome? cause? = qs.findSome? cause?) (hlast : last? ps = last? qs) :
    SameVerdict (Status.verdict ps d) (Status.verdict qs e) := by
  refine of_untimed ?_
  rw [untimed_verdict_eq d hps, untimed_verdict_eq e hqs, hcause, hlast]

/-- A part that did not fail counts for nothing if it is merely registered, or if it is followed by
one that is not. -/
theorem fold_insert {before after : List Status} {p : Status} (hne : before ++ after ≠ [])
    (hp : p.cause? = none) (h : p = loaded ∨ ∃ q ∈ after, q ≠ loaded) :
    SameVerdict (fold (before ++ p :: after)) (fold (before ++ after)) := by
  refine verdict _ _ (by simp) hne ?_ ?_
  · rw [List.findSome?_append, List.findSome?_append, List.findSome?_cons_of_isNone (by simp [hp])]
  · rw [List.append_cons, last?_append, last?_append, last?_append]
    rcases h with rfl | ⟨q, hq, hql⟩
    · simp
    · obtain ⟨last, hlast⟩ := Option.isSome_iff_exists.mp (last?_isSome hq hql)
      rw [hlast, Option.some_or, Option.some_or]

end SameVerdict

end Gherkin.Status
