import Gherkin.Proofs.ScopeOperations
import Mathlib.Data.List.Induction

/-! Each name has a stack of objects for itself, and the names stand in the order of the oldest
bindings that they still have. -/
namespace Gherkin.Objects

variable {o : Objects} {name : String} {value : Json} {time : Nat}

inductive Operation where
  | bind (name : String) (value : Json)
  | clear (name : String)
  | reset

namespace Operation

def apply (o : Objects) : Operation → Objects
  | bind name value => o.bind name value
  | clear name => (o.take name).2
  | reset => empty

/-- Whether the operation may change what is bound to a name. -/
def concerns (name : String) : Operation → Bool
  | bind n _ | clear n => n == name
  | reset => true

/-- What an operation makes of the stack of a name. Each binding is kept with its time. -/
def onStack (name : String) (time : Nat) (stack : List (Nat × Json)) :
    Operation → List (Nat × Json)
  | bind n value => if n = name then (time, value) :: stack else stack
  | clear n => if n = name then stack.tail else stack
  | reset => []

end Operation

variable {ops : List Operation} {op : Operation}

/-- The objects after some operations. -/
def history (ops : List Operation) : Objects :=
  ops.foldl Operation.apply empty

/-- The bindings of a name that were neither cleared nor reset, latest first. The time of each is
its place among all operations. -/
def live (ops : List Operation) (name : String) : List (Nat × Json) :=
  ops.zipIdx.foldl (fun stack (op, time) => op.onStack name time stack) []

/-- The time of the binding at the bottom. -/
def oldest? (ops : List Operation) (name : String) : Option Nat :=
  (live ops name).getLast?.map (·.1)

/-- Both names are bound, and the oldest binding of `a` was made first. -/
def Earlier (ops : List Operation) (a b : String) : Prop :=
  ∃ s t, oldest? ops a = some s ∧ oldest? ops b = some t ∧ s < t

/-- The objects bound to a name, latest first. -/
def stack (o : Objects) (name : String) : List Json :=
  (o.held.lookup name).getD []

theorem get?_eq_head? (o : Objects) (name : String) : o.get? name = (o.stack name).head? := by
  rw [get?, stack]
  cases o.held.lookup name <;> rfl

theorem stack_cons (p : String × List Json) (rest : List (String × List Json)) (name : String) :
    stack { held := p :: rest } name = if p.1 = name then p.2 else stack { held := rest } name := by
  rcases p with ⟨n, objects⟩
  rw [stack, List.lookup_cons]
  by_cases h : n = name
  · subst h
    simp
  · rw [if_neg h, beq_eq_false_iff_ne.mpr (Ne.symm h)]
    rfl

theorem stack_bind (o : Objects) (name : String) (value : Json) (m : String) :
    (o.bind name value).stack m = if name = m then value :: o.stack m else o.stack m := by
  rcases o with ⟨held⟩
  rw [bind]
  induction held with
  | nil => simp only [pushTo, stack_cons]; rfl
  | cons p rest ih =>
    rcases p with ⟨n, objects⟩
    by_cases hn : n = name
    · subst hn
      simp only [pushTo, beq_self_eq_true, if_true, stack_cons]
      split <;> rfl
    · simp only [pushTo, beq_iff_eq, hn, if_false, stack_cons, ih]
      split
      · next hm => rw [if_neg fun h => hn (hm.trans h.symm)]
      · rfl

theorem stack_eq_nil (h : name ∉ o.names) : o.stack name = [] := by
  rcases o with ⟨held⟩
  induction held with
  | nil => rfl
  | cons p rest ih =>
    rw [names, List.map_cons, List.mem_cons, not_or] at h
    rw [stack_cons, if_neg (Ne.symm h.1), ih h.2]

theorem mem_names_iff (h : o.Sound) : name ∈ o.names ↔ o.stack name ≠ [] := by
  refine ⟨fun hm => ?_, fun hs => by_contra fun hm => hs (stack_eq_nil hm)⟩
  rcases o with ⟨held⟩
  induction held with
  | nil => cases hm
  | cons p rest ih =>
    obtain ⟨hp, h⟩ := List.forall_mem_cons.mp h
    rw [stack_cons]
    split
    · exact hp
    · next hne => exact ih h ((List.mem_cons.mp hm).resolve_left (Ne.symm hne))

theorem popFrom_head (name : String) (objects : List Json) (rest : List (String × List Json)) :
    popFrom name ((name, objects) :: rest) =
      if 1 < objects.length then (name, objects.tail) :: rest else rest := by
  rcases objects with _ | ⟨top, _ | ⟨next, below⟩⟩ <;> simp [popFrom]

/-- A name comes once, and so no older stack comes to light when its last object is taken off. -/
theorem stack_clear (h : o.names.Nodup) (name m : String) :
    (o.clear name).stack m = if name = m then (o.stack m).tail else o.stack m := by
  rcases o with ⟨held⟩
  rw [clear]
  induction held with
  | nil => simp [popFrom, stack]
  | cons p rest ih =>
    rcases p with ⟨n, objects⟩
    obtain ⟨hrest, h⟩ := List.nodup_cons.mp h
    by_cases hn : n = name
    · subst hn
      have hnil : stack { held := rest } n = [] := stack_eq_nil hrest
      rw [popFrom_head, stack_cons]
      by_cases hm : n = m
      · subst hm
        rw [if_pos rfl, if_pos rfl]
        split
        · rw [stack_cons, if_pos rfl]
        · next hone =>
          have htail : objects.tail.length = 0 := by rw [List.length_tail]; omega
          rw [hnil, List.eq_nil_of_length_eq_zero htail]
      · rw [if_neg hm, if_neg hm]
        split
        · rw [stack_cons, if_neg hm]
        · rfl
    · simp only [popFrom, beq_iff_eq, hn, if_false, stack_cons, ih h]
      split
      · next hm => rw [if_neg fun h => hn (hm.trans h.symm)]
      · rfl

theorem names_bind (o : Objects) (name : String) (value : Json) :
    (o.bind name value).names = if name ∈ o.names then o.names else o.names ++ [name] := by
  rcases o with ⟨held⟩
  simp only [names, bind]
  induction held with
  | nil => rfl
  | cons p rest ih =>
    by_cases hp : p.1 = name
    · simp [pushTo, hp]
    · have hne : name ≠ p.1 := Ne.symm hp
      simp only [pushTo, beq_iff_eq, hp, if_false, List.map_cons, ih, List.mem_cons, hne, false_or]
      split <;> simp [*]

theorem names_clear (o : Objects) (name : String) :
    (o.clear name).names =
      if 1 < (o.stack name).length then o.names else o.names.erase name := by
  rcases o with ⟨held⟩
  simp only [names, clear]
  induction held with
  | nil => simp [popFrom, stack]
  | cons p rest ih =>
    rcases p with ⟨n, objects⟩
    by_cases hn : n = name
    · subst hn
      rw [popFrom_head, stack_cons, if_pos rfl]
      split
      · rfl
      · rw [List.map_cons, List.erase_cons_head]
    · simp only [popFrom, beq_iff_eq, hn, if_false, stack_cons, List.map_cons, ih]
      split
      · rfl
      · rw [List.erase_cons_tail (by simpa using hn)]

theorem history_concat (ops : List Operation) (op : Operation) :
    history (ops ++ [op]) = op.apply (history ops) := by
  rw [history, List.foldl_append]
  rfl

theorem live_concat (ops : List Operation) (op : Operation) (name : String) :
    live (ops ++ [op]) name = op.onStack name ops.length (live ops name) := by
  rw [live, List.zipIdx_append, List.foldl_append, Nat.zero_add]
  rfl

/-- What is live was bound at its time. -/
theorem mem_live {p : Nat × Json} (h : p ∈ live ops name) : ops[p.1]? = some (.bind name p.2) := by
  induction ops using List.reverseRecOn with
  | nil => cases h
  | append_singleton ops op ih =>
    have hold (h : p ∈ live ops name) : (ops ++ [op])[p.1]? = some (.bind name p.2) := by
      obtain ⟨hlt, -⟩ := List.getElem?_eq_some_iff.mp (ih h)
      rw [List.getElem?_append_left hlt, ih h]
    rw [live_concat] at h
    cases op with
    | bind n value =>
      simp only [Operation.onStack] at h
      split at h
      · next hn =>
        rcases List.mem_cons.mp h with rfl | h
        · simp [hn]
        · exact hold h
      · exact hold h
    | clear n =>
      simp only [Operation.onStack] at h
      split at h
      · exact hold (List.mem_of_mem_tail h)
      · exact hold h
    | reset => cases h

theorem lt_length_of_oldest? (h : oldest? ops name = some time) : time < ops.length := by
  obtain ⟨p, hp, rfl⟩ := Option.map_eq_some_iff.mp h
  obtain ⟨hlt, -⟩ := List.getElem?_eq_some_iff.mp (mem_live (List.mem_of_getLast? hp))
  exact hlt

theorem oldest?_eq_none_iff : oldest? ops name = none ↔ live ops name = [] := by
  rw [oldest?, Option.map_eq_none_iff, List.getLast?_eq_none_iff]

/-- As long as a name is bound, the binding at the bottom stays. -/
theorem oldest?_concat (h : live ops name ≠ []) (hafter : live (ops ++ [op]) name ≠ []) :
    oldest? (ops ++ [op]) name = oldest? ops name := by
  rw [live_concat] at hafter
  rw [oldest?, oldest?, live_concat]
  congr 1
  cases op with
  | bind n value =>
    simp only [Operation.onStack]
    split
    · exact List.getLast?_cons_of_ne_nil h
    · rfl
  | clear n =>
    simp only [Operation.onStack] at hafter ⊢
    split
    · next hn =>
      rw [if_pos hn] at hafter
      obtain ⟨top, below, hl⟩ := List.exists_cons_of_ne_nil h
      rw [hl, List.tail_cons] at hafter ⊢
      exact (List.getLast?_cons_of_ne_nil hafter).symm
    · rfl
  | reset => exact absurd rfl hafter

/-- The objects are those that the live bindings tell. -/
structure Refines (ops : List Operation) (o : Objects) : Prop where
  sound : o.Sound
  nodup : o.names.Nodup
  stack : ∀ name, o.stack name = (live ops name).map (·.2)
  ordered : o.names.Pairwise (Earlier ops)

theorem refines_nil : Refines [] empty where
  sound := by simp [Sound, empty]
  nodup := List.nodup_nil
  stack _ := rfl
  ordered := .nil

theorem Refines.mem_names_iff (h : Refines ops o) : name ∈ o.names ↔ live ops name ≠ [] := by
  rw [Objects.mem_names_iff h.sound, h.stack, ne_eq, List.map_eq_nil_iff]

theorem sound_apply (h : o.Sound) (op : Operation) : (op.apply o).Sound := by
  cases op with
  | bind => exact sound_bind h
  | clear => exact sound_clear h
  | reset => simp [Operation.apply, Sound, empty]

theorem nodup_apply (h : o.names.Nodup) (op : Operation) : (op.apply o).names.Nodup := by
  cases op with
  | bind name value =>
    rw [Operation.apply, names_bind]
    split
    · exact h
    · next hn => exact Pairs.nodup_concat h hn
  | clear name =>
    change (o.clear name).names.Nodup
    rw [names_clear]
    split
    · exact h
    · exact h.erase name
  | reset => exact List.nodup_nil

/-- An operation changes a stack as it changes the bindings that the stack consists of. -/
theorem stack_apply (hn : o.names.Nodup) {stack : List (Nat × Json)}
    (h : o.stack name = stack.map (·.2)) (op : Operation) (time : Nat) :
    (op.apply o).stack name = (op.onStack name time stack).map (·.2) := by
  cases op with
  | bind n value =>
    rw [Operation.apply, stack_bind, h, Operation.onStack]
    split <;> rfl
  | clear n =>
    change (o.clear n).stack name = _
    rw [stack_clear hn, h, Operation.onStack]
    split
    · exact List.map_tail.symm
    · rfl
  | reset => rfl

theorem Earlier.concat {a b : String} (h : Earlier ops a b) (ha : live (ops ++ [op]) a ≠ [])
    (hb : live (ops ++ [op]) b ≠ []) : Earlier (ops ++ [op]) a b := by
  obtain ⟨s, t, hs, ht, hlt⟩ := h
  have hla : live ops a ≠ [] := fun he => by simp [oldest?_eq_none_iff.mpr he] at hs
  have hlb : live ops b ≠ [] := fun he => by simp [oldest?_eq_none_iff.mpr he] at ht
  exact ⟨s, t, by rwa [oldest?_concat hla ha], by rwa [oldest?_concat hlb hb], hlt⟩

/-- A name that was not bound comes behind all others. -/
theorem earlier_concat_bind {a : String} (ha : live ops a ≠ []) (hn : live ops name = [])
    (value : Json) : Earlier (ops ++ [.bind name value]) a name := by
  obtain ⟨s, hs⟩ := Option.ne_none_iff_exists'.mp (mt oldest?_eq_none_iff.mp ha)
  have hne : name ≠ a := fun he => ha (he ▸ hn)
  have hlive : live (ops ++ [.bind name value]) a = live ops a := by
    rw [live_concat, Operation.onStack, if_neg hne]
  refine ⟨s, ops.length, ?_, ?_, lt_length_of_oldest? hs⟩
  · rw [oldest?, hlive]
    exact hs
  · rw [oldest?, live_concat, Operation.onStack, if_pos rfl, hn]
    rfl

theorem refines_concat (h : Refines ops o) (op : Operation) :
    Refines (ops ++ [op]) (op.apply o) := by
  have hsound := sound_apply h.sound op
  have hstack (name : String) :
      (op.apply o).stack name = (live (ops ++ [op]) name).map (·.2) := by
    rw [live_concat]
    exact stack_apply h.nodup (h.stack name) op ops.length
  have hlive {name : String} (hm : name ∈ (op.apply o).names) : live (ops ++ [op]) name ≠ [] := by
    rwa [Objects.mem_names_iff hsound, hstack, ne_eq, List.map_eq_nil_iff] at hm
  -- The names that stay are in order as before.
  have hkept {names : List String} (hsub : names.Sublist o.names)
      (hmem : ∀ name ∈ names, name ∈ (op.apply o).names) :
      names.Pairwise (Earlier (ops ++ [op])) :=
    (h.ordered.sublist hsub).imp_of_mem fun ha hb he =>
      he.concat (hlive (hmem _ ha)) (hlive (hmem _ hb))
  refine ⟨hsound, nodup_apply h.nodup op, hstack, ?_⟩
  cases op with
  | bind name value =>
    have hnames : (Operation.apply o (.bind name value)).names = _ := names_bind o name value
    by_cases hm : name ∈ o.names
    · rw [if_pos hm] at hnames
      rw [hnames]
      exact hkept (.refl _) fun a ha => hnames ▸ ha
    · rw [if_neg hm] at hnames
      rw [hnames, List.pairwise_append]
      refine ⟨hkept (.refl _) fun a ha => hnames ▸ List.mem_append_left _ ha,
        List.pairwise_singleton _ _, fun a ha b hb => ?_⟩
      rw [List.mem_singleton.mp hb]
      have hnone : live ops name = [] := by_contra fun hl => hm (h.mem_names_iff.mpr hl)
      exact earlier_concat_bind (h.mem_names_iff.mp ha) hnone value
  | clear name =>
    have hsub : (Operation.apply o (.clear name)).names.Sublist o.names := by
      change (o.clear name).names.Sublist o.names
      rw [names_clear]
      split
      · exact .refl _
      · exact List.erase_sublist
    exact hkept hsub fun a ha => ha
  | reset => exact .nil

theorem refines_history (ops : List Operation) : Refines ops (history ops) := by
  induction ops using List.reverseRecOn with
  | nil => exact refines_nil
  | append_singleton ops op ih =>
    rw [history_concat]
    exact refines_concat ih op

theorem onStack_of_not_concerns {stack : List (Nat × Json)} (h : ¬ op.concerns name) (time : Nat) :
    op.onStack name time stack = stack := by
  cases op with
  | reset => exact absurd rfl h
  | _ => simp_all [Operation.onStack, Operation.concerns]

/-- Operations that do not concern a name may as well be left out. -/
theorem stack_history_filter (ops : List Operation) (name : String) :
    (history (ops.filter (·.concerns name))).stack name = (live ops name).map (·.2) := by
  induction ops using List.reverseRecOn with
  | nil => rfl
  | append_singleton ops op ih =>
    rw [List.filter_append, live_concat]
    by_cases hc : op.concerns name
    · rw [List.filter_cons_of_pos hc, List.filter_nil, history_concat]
      exact stack_apply (refines_history _).nodup ih op ops.length
    · rw [List.filter_cons_of_neg hc, List.filter_nil, List.append_nil, ih,
        onStack_of_not_concerns hc]

theorem Refines.isEmpty_iff (h : Refines ops o) : o.isEmpty ↔ ∀ name, live ops name = [] := by
  rw [isEmpty, List.isEmpty_iff, ← List.map_eq_nil_iff (f := (·.1))]
  change o.names = [] ↔ _
  simp only [List.eq_nil_iff_forall_not_mem (l := o.names), h.mem_names_iff, ne_eq, not_not]

/-- After any operations each name tells the top of a stack of its own, which no operation on
another name changes, and taking an object off takes it from there. No stack is left empty, and
nothing is bound exactly if each binding was cleared or reset. The names are those with a binding
that is live, in the order in which the oldest of these were made: a name bound anew goes to the
end, and it keeps its place until its last binding is cleared. -/
theorem objects_refine_stacks (ops : List Operation) :
    let o := history ops
    (∀ name, o.get? name = (live ops name).head?.map (·.2) ∧
      o.take name = ((live ops name).head?.map (·.2), history (ops ++ [.clear name])) ∧
      o.get? name = (history (ops.filter (·.concerns name))).get? name) ∧
    o.Sound ∧
    (o.isEmpty ↔ ∀ (time : Nat) name value, ops[time]? = some (.bind name value) →
      (time, value) ∉ live ops name) ∧
    o.names.Nodup ∧ (∀ name, name ∈ o.names ↔ live ops name ≠ []) ∧
    o.names.Pairwise (Earlier ops) ∧
    (∀ name value, (history (ops ++ [.bind name value])).names =
      if name ∈ o.names then o.names else o.names ++ [name]) ∧
    ∀ name, (history (ops ++ [.clear name])).names =
      if 1 < (live ops name).length then o.names else o.names.erase name := by
  intro o
  have h : Refines ops o := refines_history ops
  have hget (name : String) : o.get? name = (live ops name).head?.map (·.2) := by
    rw [get?_eq_head?, h.stack, List.head?_map]
  refine ⟨fun name => ⟨hget name, ?_, ?_⟩, h.sound, ?_, h.nodup, fun name => h.mem_names_iff,
    h.ordered, fun name value => ?_, fun name => ?_⟩
  · rw [take, hget, history_concat]
    rfl
  · rw [get?_eq_head?, get?_eq_head?, stack_history_filter, h.stack]
  · rw [h.isEmpty_iff]
    refine ⟨fun hnone time name value _ hlive => ?_, fun hcleared name => ?_⟩
    · rw [hnone name] at hlive
      cases hlive
    · exact List.eq_nil_iff_forall_not_mem.mpr fun p hp =>
        hcleared p.1 name p.2 (mem_live hp) hp
  · rw [history_concat]
    exact names_bind o name value
  · have hlength : (o.stack name).length = (live ops name).length := by
      rw [h.stack, List.length_map]
    rw [history_concat, ← hlength]
    exact names_clear o name

/-- One name is cleared and bound anew, and of the two objects of the other the last is cleared. -/
theorem objects_refine_stacks_table :
    let ops : List Operation := [.bind "user" (.int 1), .bind "table" (.int 2),
      .bind "table" (.int 3), .clear "user", .bind "user" (.int 4), .clear "table"]
    let o := history ops
    o.names = ["table", "user"] ∧ Earlier ops "table" "user" ∧
    o.get? "table" = some (.int 2) ∧ (o.take "user").1 = some (.int 4) ∧
    ops[1]? = some (.bind "table" (.int 2)) ∧ (1, .int 2) ∈ live ops "table" ∧
    o.isEmpty = false := by
  intro ops o
  obtain ⟨hstacks, -, hempty, -, -, hordered, -, -⟩ := objects_refine_stacks ops
  have hbound : ops[1]? = some (.bind "table" (.int 2)) := rfl
  have hlive : (1, .int 2) ∈ live ops "table" := List.mem_singleton.mpr rfl
  refine ⟨rfl, List.rel_of_pairwise_cons hordered List.mem_cons_self,
    (hstacks "table").1, congrArg Prod.fst (hstacks "user").2.1, hbound, hlive, ?_⟩
  rw [← Bool.not_eq_true, hempty]
  exact fun h => h 1 _ _ hbound hlive

end Gherkin.Objects
