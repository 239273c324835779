import Gherkin.Proofs.OpenScopes
import Mathlib.Data.List.Infix

/-! A bracket opens a scope, goes on above it and closes all of it again. Of what was done between,
only the bindings stay that were made in the scopes below. -/
namespace Gherkin

namespace Scope

variable {s : Scope} {name : String} {added more : Pairs}

/-- The same scope with these bindings at the end. -/
def extend (s : Scope) (added : Pairs) : Scope :=
  { s with bindings := s.bindings ++ added }

@[simp] theorem extend_nil (s : Scope) : s.extend [] = s := by
  rw [extend, List.append_nil]

theorem extend_extend (s : Scope) (added more : Pairs) :
    (s.extend added).extend more = s.extend (added ++ more) := by
  simp only [extend, List.append_assoc]

theorem get?_extend (h : name ∉ added.map (·.1)) : (s.extend added).get? name = s.get? name := by
  have hnone : added.reverse.find? (·.1 == name) = none := by
    rw [List.find?_eq_none]
    intro p hp he
    exact h (List.mem_map.mpr ⟨p, List.mem_reverse.mp hp, eq_of_beq he⟩)
  simp only [get?, extend, List.reverse_append, List.find?_append, hnone, Option.none_or]

end Scope

namespace Scopes

variable {s t u : Scopes} {scope name value : String} {d n : Nat} {op : Operation}
  {ops : List Operation}

/-- The scope at a level. The feature scope is at level 0, and those opened are counted from 1. -/
def level? (s : Scopes) (n : Nat) : Option Scope :=
  s.all.reverse[n]?

/-- The level of the nearest scope of that name. -/
def nearest? (s : Scopes) (scope : String) : Option Nat :=
  (s.all.findIdx? (·.name == scope)).map (s.depth - ·)

/-- The level of the scope that gets a binding for this name of a scope, unless one is opened for
it. The feature scope gets those for its own name, even if a nearer scope is so called. -/
def target? (s : Scopes) (scope : String) : Option Nat :=
  if scope = Scope.featureName then some 0 else s.nearest? scope

namespace Operation

/-- What an operation binds at a level, where `aim` tells the level that a name of a scope means. -/
def bindsAt (aim : Scopes → String → Option Nat) (n : Nat) (s : Scopes) : Operation → Pairs
  | set scope name value => if aim s scope = some n then [(name, value)] else []
  | _ => []

/-- What operations bind at a level, one after the other. -/
def allBindAt (aim : Scopes → String → Option Nat) (n : Nat) : List Operation → Scopes → Pairs
  | [], _ => []
  | op :: ops, s => op.bindsAt aim n s ++ allBindAt aim n ops (op.apply s)

/-- A binding is made, a scope is opened, or scopes are closed. -/
def Brackets : Operation → Prop
  | set .. | push _ | pop | truncate _ => True
  | _ => False

end Operation

theorem level?_zero (s : Scopes) : s.level? 0 = some s.feature := by
  rw [level?, all, List.reverse_append, List.reverse_singleton, List.singleton_append,
    List.getElem?_cons_zero]

theorem level?_succ (s : Scopes) (n : Nat) : s.level? (n + 1) = s.opened.reverse[n]? := by
  rw [level?, all, List.reverse_append, List.reverse_singleton, List.singleton_append,
    List.getElem?_cons_succ]

theorem length_all (s : Scopes) : s.all.length = s.depth + 1 := by
  rw [all, List.length_append, List.length_singleton, depth]

theorem exists_level? (h : n ≤ s.depth) : ∃ c, s.level? n = some c := by
  refine ⟨_, List.getElem?_eq_getElem ?_⟩
  rw [List.length_reverse, length_all]
  exact Nat.lt_succ_of_le h

theorem level?_push (c : Scope) (h : n ≤ s.depth) : (s.push c).level? n = s.level? n := by
  cases n with
  | zero => rw [level?_zero, level?_zero, push]
  | succ n =>
    rw [level?_succ, level?_succ, push, List.reverse_cons, List.getElem?_append_left]
    rwa [List.length_reverse]

theorem depth_truncate (h : d ≤ s.depth) : (s.truncate d).depth = d := by
  rw [truncate_eq h, depth, List.length_drop]
  exact Nat.sub_sub_self h

theorem level?_truncate (h : n ≤ (s.truncate d).depth) : (s.truncate d).level? n = s.level? n := by
  rcases Nat.le_total d s.depth with hd | hd
  · rw [depth_truncate hd] at h
    rw [truncate_eq hd]
    cases n with
    | zero => rw [level?_zero, level?_zero]
    | succ n =>
      rw [level?_succ, level?_succ, List.reverse_drop, List.getElem?_take, if_pos]
      simp only [depth] at hd ⊢
      omega
  · rw [truncate_of_depth_le hd]

theorem pop_eq_truncate (s : Scopes) : s.pop = s.truncate (s.depth - 1) := by
  rcases s with ⟨_ | ⟨top, rest⟩, feature, flash, objects⟩
  · rfl
  · rw [truncate, depth, List.length_cons, Nat.add_sub_cancel, Nat.add_sub_cancel_left]
    rfl

theorem setNearest?_eq (scope name value : String) (ss : List Scope) :
    setNearest? scope name value ss =
      (ss.findIdx? (·.name == scope)).map fun i => ss.modify i (·.set name value) := by
  induction ss with
  | nil => rfl
  | cons s ss ih =>
    rw [setNearest?, List.findIdx?_cons]
    split
    · rfl
    · rw [ih, Option.map_map, Option.map_map]
      rfl

theorem nearest?_eq (h : s.feature.name ≠ scope) :
    s.nearest? scope = (s.opened.findIdx? (·.name == scope)).map (s.depth - ·) := by
  have hfeature : (s.feature.name == scope) = false := by simpa using h
  rw [nearest?, all, List.findIdx?_append, List.findIdx?_singleton, hfeature]
  simp

/-- Changing one of the scopes opened changes one level. -/
theorem level?_modify {i : Nat} (f : Scope → Scope) (flash : List Flash) (hi : i < s.depth)
    (h : n ≤ s.depth) :
    level? { s with opened := s.opened.modify i f, flash } n =
      (s.level? n).map fun c => if s.depth - i = n then f c else c := by
  cases n with
  | zero => simp [level?_zero, Nat.sub_ne_zero_of_lt hi]
  | succ n =>
    have hn : n < s.opened.length := h
    have hlevel : i = s.opened.length - 1 - n ↔ s.depth - i = n + 1 := by
      simp only [depth] at hi ⊢
      omega
    rw [level?_succ, level?_succ, List.getElem?_reverse (by rwa [List.length_modify]),
      List.getElem?_reverse hn, List.length_modify, List.getElem?_modify]
    simp only [hlevel]
    rfl

/-- A binding is made at the level that is meant, and nowhere else. -/
theorem level?_set (hname : s.feature.name = Scope.featureName) (h : n ≤ s.depth) :
    (s.set scope name value).level? n =
      (s.level? n).map (·.extend ((Operation.set scope name value).bindsAt target? n s)) := by
  by_cases hscope : scope = Scope.featureName
  · rw [set, if_pos (by simp [hscope])]
    cases n with
    | zero => simp [level?_zero, Operation.bindsAt, target?, hscope, Scope.set, Scope.extend]
    | succ n => simp [level?_succ, Operation.bindsAt, target?, hscope]
  · have htarget : s.target? scope =
        (s.opened.findIdx? (·.name == scope)).map (s.depth - ·) := by
      rw [target?, if_neg hscope, nearest?_eq (hname ▸ Ne.symm hscope)]
    rw [set, if_neg (by simpa using hscope), setNearest?_eq, Operation.bindsAt, htarget]
    cases hi : s.opened.findIdx? (·.name == scope) with
    | none => simp [level?_push _ h]
    | some i =>
      obtain ⟨hlt, -⟩ := List.findIdx?_eq_some_iff_getElem.mp hi
      simp only [Option.map_some, Option.some.injEq, level?_modify _ _ hlt h]
      split
      · rfl
      · simp

theorem name_feature_apply (h : s.feature.name = Scope.featureName) :
    (op.apply s).feature.name = Scope.featureName := by
  cases op with
  | set scope name value => exact (over_set s scope name value).feature.1.trans h
  | truncate d =>
    rcases Nat.le_total d s.depth with hd | hd
    · rw [Operation.apply, truncate_eq hd]
      exact h
    · rw [Operation.apply, truncate_of_depth_le hd]
      exact h
  | pop =>
    rcases s with ⟨_ | ⟨top, rest⟩, feature, flash, objects⟩ <;> exact h
  | _ => exact h

theorem name_feature_applyAll (ops : List Operation) (h : s.feature.name = Scope.featureName) :
    (Operation.applyAll ops s).feature.name = Scope.featureName := by
  induction ops generalizing s with
  | nil => exact h
  | cons op ops ih => exact ih (name_feature_apply h)

/-- Up to a level each scope has got these bindings and no more, and the same values are hidden. -/
structure Gains (d : Nat) (added : Nat → Pairs) (s t : Scopes) : Prop where
  level : ∀ n ≤ d, t.level? n = (s.level? n).map (·.extend (added n))
  flash : t.flash.filter (·.depth ≤ d) = s.flash.filter (·.depth ≤ d)

theorem Gains.refl (d : Nat) (s : Scopes) : Gains d (fun _ => []) s s :=
  ⟨fun n _ => by simp, rfl⟩

theorem Gains.trans {added more : Nat → Pairs} (h₁ : Gains d added s t) (h₂ : Gains d more t u) :
    Gains d (fun n => added n ++ more n) s u := by
  refine ⟨fun n hn => ?_, h₂.flash.trans h₁.flash⟩
  rw [h₂.level n hn, h₁.level n hn, Option.map_map]
  congr 1
  funext c
  exact c.extend_extend (added n) (more n)

theorem gains_set (hname : s.feature.name = Scope.featureName) (hd : d < s.depth) :
    Gains d (fun n => (Operation.set scope name value).bindsAt target? n s) s
      (s.set scope name value) := by
  refine ⟨fun n hn => level?_set hname (by omega), ?_⟩
  unfold set
  split
  · rfl
  · split
    · rfl
    · -- What is hidden now belongs to the innermost scope, which lies above.
      rw [List.filter_append, List.append_right_eq_self, List.filter_eq_nil_iff]
      intro f hf
      simpa [depth_of_mem_hidden hf] using hd

theorem gains_push (c : Scope) (hd : d ≤ s.depth) : Gains d (fun _ => []) s (s.push c) := by
  refine ⟨fun n hn => ?_, rfl⟩
  rw [level?_push c (Nat.le_trans hn hd)]
  simp

theorem gains_truncate {k : Nat} (hd : d ≤ (s.truncate k).depth) :
    Gains d (fun _ => []) s (s.truncate k) := by
  refine ⟨fun n hn => ?_, ?_⟩
  · rw [level?_truncate (Nat.le_trans hn hd)]
    simp
  · rcases Nat.le_total k s.depth with hk | hk
    · rw [depth_truncate hk] at hd
      rw [truncate_eq hk, List.filter_filter]
      apply List.filter_congr
      intro f hf
      rw [Bool.eq_iff_iff]
      simp only [Bool.and_eq_true, decide_eq_true_eq]
      omega
    · rw [truncate_of_depth_le hk]

theorem gains_apply (hname : s.feature.name = Scope.featureName)
    (hop : op.Brackets) (hd : d < s.depth) (hafter : d < (op.apply s).depth) :
    Gains d (fun n => op.bindsAt target? n s) s (op.apply s) := by
  cases op with
  | set scope name value => exact gains_set hname hd
  | push c => exact gains_push c (Nat.le_of_lt hd)
  | pop =>
    simp only [Operation.apply, pop_eq_truncate] at hafter ⊢
    exact gains_truncate (Nat.le_of_lt hafter)
  | truncate k => exact gains_truncate (Nat.le_of_lt hafter)
  | _ => exact hop.elim

/-- As long as the depth stays above a level, only bindings that are meant for the scopes up to it
come to them. -/
theorem gains_applyAll (hname : s.feature.name = Scope.featureName)
    (hops : ∀ op ∈ ops, op.Brackets)
    (hd : ∀ done, done <+: ops → d < (Operation.applyAll done s).depth) :
    Gains d (fun n => Operation.allBindAt target? n ops s) s (Operation.applyAll ops s) := by
  induction ops generalizing s with
  | nil => exact .refl d s
  | cons op ops ih =>
    obtain ⟨hop, hops⟩ := List.forall_mem_cons.mp hops
    have hstep := gains_apply hname hop (hd [] List.nil_prefix)
      (hd [op] (List.prefix_append [op] ops))
    refine hstep.trans (ih (name_feature_apply hname) hops fun done hdone => ?_)
    exact hd (op :: done) (List.cons_prefix_cons.mpr ⟨rfl, hdone⟩)

/-- What bindings do not change is the same of every scope. -/
theorem map_all_eq {β : Type} {f : Scope → β} {added : Nat → Pairs} (hdepth : t.depth = s.depth)
    (h : Gains s.depth added s t)
    (hf : ∀ n ≤ s.depth, ∀ c : Scope, f (c.extend (added n)) = f c) :
    t.all.map f = s.all.map f := by
  rw [← List.reverse_inj, ← List.map_reverse, ← List.map_reverse]
  refine List.ext_getElem? fun n => ?_
  rw [List.getElem?_map, List.getElem?_map]
  rcases Nat.lt_or_ge s.depth n with hn | hn
  · rw [List.getElem?_eq_none, List.getElem?_eq_none] <;>
      simp only [List.length_reverse, length_all] <;> omega
  · change (t.level? n).map f = (s.level? n).map f
    rw [h.level n hn, Option.map_map]
    congr 1
    funext c
    exact hf n hn c

theorem filter_flash_le (hs : Sound s) (hd : s.depth = d) :
    s.flash.filter (·.depth ≤ d) = s.flash :=
  List.filter_eq_self.mpr fun f hf => by simpa [hd] using hs.hidden f hf

theorem get?_eq (s : Scopes) (name : String) :
    s.get? name = (s.all.map (·.get? name)).findSome? id := by
  rw [get?, List.findSome?_map]
  rfl

/-- A scope is opened, operations go on above it, and everything down to the depth before is closed.
That leaves the depth, the names of the scopes and the hidden values as they were. Each scope has
got the bindings that were meant for it and no more, and a name that none of them binds has the value
it had. -/
theorem bracket_restores (history : List Operation) (scope : Scope) (ops : List Operation)
    (hops : ∀ op ∈ ops, op.Brackets)
    (habove : ∀ done, done <+: ops →
      (Operation.applyAll history new).depth <
        (Operation.applyAll (.push scope :: done) (Operation.applyAll history new)).depth) :
    let s := Operation.applyAll history new
    let t := (Operation.applyAll (.push scope :: ops) s).truncate s.depth
    let added n := Operation.allBindAt target? n (.push scope :: ops) s
    t.depth = s.depth ∧ t.opened.map (·.name) = s.opened.map (·.name) ∧ t.flash = s.flash ∧
    (∀ n ≤ s.depth, ∃ c, s.level? n = some c ∧ t.level? n = some (c.extend (added n))) ∧
    ∀ name, (∀ n ≤ s.depth, name ∉ (added n).map (·.1)) → t.get? name = s.get? name := by
  intro s t added
  have hs : Sound s := sound_applyAll history sound_new
  have hname : s.feature.name = Scope.featureName := name_feature_applyAll history rfl
  have hpushed : Sound (s.push scope) := sound_apply (.push scope) hs
  have hopened : s.depth < (Operation.applyAll ops (s.push scope)).depth :=
    habove ops List.prefix_rfl
  have hdepth : t.depth = s.depth := depth_truncate (Nat.le_of_lt hopened)
  have hgains : Gains s.depth added s t := by
    have hrun : Gains s.depth added s (Operation.applyAll ops (s.push scope)) :=
      (gains_push scope (Nat.le_refl s.depth)).trans (gains_applyAll hname hops habove)
    have hclose : Gains s.depth (fun _ => []) (Operation.applyAll ops (s.push scope)) t :=
      gains_truncate (Nat.le_of_eq hdepth.symm)
    simpa only [List.append_nil] using hrun.trans hclose
  have ht : Sound t := sound_truncate (sound_applyAll ops hpushed) s.depth
  refine ⟨hdepth, ?_, ?_, fun n hn => ?_, fun name hnone => ?_⟩
  · have hnames := map_all_eq (f := (·.name)) hdepth hgains fun _ _ _ => rfl
    rw [all, all, List.map_append, List.map_append] at hnames
    exact (List.append_inj hnames (by rw [List.length_map, List.length_map]; exact hdepth)).1
  · rw [← filter_flash_le ht hdepth, hgains.flash, filter_flash_le hs rfl]
  · obtain ⟨c, hc⟩ := exists_level? hn
    exact ⟨c, hc, by rw [hgains.level n hn, hc, Option.map_some]⟩
  · rw [get?_eq, get?_eq, map_all_eq hdepth hgains fun n hn c => Scope.get?_extend (hnone n hn)]

/-- Above a scope that hides a value another is opened. Bindings are made in it, below it and in a
scope opened for one, and some of the scopes are closed again. -/
theorem bracket_restores_vars :
    let history : List Operation :=
      [.set "feature" "user" "ada", .set "vars" "x" "1", .set "vars" "x" "2"]
    let scope : Scope := { name := "stepdef", bindings := [("user", "grace")] }
    let ops : List Operation := [.set "stepdef" "user" "eve", .set "vars" "y" "3",
      .set "local" "z" "4", .set "feature" "title" "countess", .truncate 2, .push scope, .pop]
    let s := Operation.applyAll history new
    let t := (Operation.applyAll (.push scope :: ops) s).truncate s.depth
    (∀ op ∈ ops, op.Brackets) ∧
    (∀ done, done <+: ops →
      s.depth < (Operation.applyAll (.push scope :: done) s).depth) ∧
    t.flash = [{ scope := "vars", name := "x", value := "1", depth := 1 }] ∧
    t.level? 0 = some { name := "feature", bindings := [("user", "ada"), ("title", "countess")] } ∧
    t.level? 1 = some { name := "vars", bindings := [("x", "1"), ("x", "2"), ("y", "3")] } ∧
    t.get? "user" = some "ada" := by
  intro history scope ops s t
  have hops : ∀ op ∈ ops, op.Brackets := by
    simp [ops, Operation.Brackets]
  have habove : ∀ done, done <+: ops →
      s.depth < (Operation.applyAll (.push scope :: done) s).depth := by
    simp only [← List.mem_inits]
    decide
  obtain ⟨-, -, hflash, hlevel, hget⟩ := bracket_restores history scope ops hops habove
  obtain ⟨c₀, hc₀, h₀⟩ := hlevel 0 (by decide)
  obtain ⟨c₁, hc₁, h₁⟩ := hlevel 1 (by decide)
  cases hc₀
  cases hc₁
  refine ⟨hops, habove, hflash, h₀.trans (by decide), h₁.trans (by decide), ?_⟩
  rw [hget "user" (by decide)]
  decide

/-- A bracket in which the feature scope gets a binding for its name, although the scope opened is
the nearest so called. -/
theorem feature_scope_not_nearest :
    let scope : Scope := { name := Scope.featureName }
    let ops : List Operation := [.set Scope.featureName "user" "ada"]
    let t := (Operation.applyAll (.push scope :: ops) new).truncate new.depth
    (∀ op ∈ ops, op.Brackets) ∧
    (∀ done, done <+: ops → new.depth < (Operation.applyAll (.push scope :: done) new).depth) ∧
    ¬ ∀ n ≤ new.depth, ∃ c, new.level? n = some c ∧
      t.level? n = some (c.extend (Operation.allBindAt nearest? n (.push scope :: ops) new)) := by
  intro scope ops t
  refine ⟨by simp [ops, Operation.Brackets], ?_, fun h => ?_⟩
  · simp only [← List.mem_inits]
    decide
  · obtain ⟨c, hc, hclosed⟩ := h 0 (Nat.zero_le _)
    cases hc
    exact absurd hclosed (by decide)

end Scopes

end Gherkin
