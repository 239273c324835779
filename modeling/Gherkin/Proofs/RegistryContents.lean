import Gherkin.Proofs.Matching
import Gherkin.Proofs.Provenance
import Gherkin.Proofs.Resolution
import Mathlib.Data.List.TakeWhile

/-! What stands in a registry. Which registrations are refused is told by the name alone, and what
is stored under a name is the last scenario accepted for it, with the meta files of those before. -/
namespace Gherkin

/-- The first word is the one between the blanks in front and the next blank. -/
theorem Text.firstWord_eq_iff {word s : List Char} (hne : word ≠ [])
    (hword : ∀ c ∈ word, isBlank c = false) :
    firstWord s = word ↔ ∃ before after, s = before ++ word ++ after ∧
      (∀ c ∈ before, isBlank c = true) ∧ ∀ c ∈ after.head?, isBlank c = true := by
  constructor
  · rintro rfl
    refine ⟨s.takeWhile isBlank, (trimStart s).dropWhile (!isBlank ·), ?_, ?_, fun c hc => ?_⟩
    · rw [firstWord, List.append_assoc, List.takeWhile_append_dropWhile, trimStart,
        List.takeWhile_append_dropWhile]
    · exact fun c hc => List.mem_takeWhile_imp hc
    · have hnot := List.head?_dropWhile_not (!isBlank ·) (trimStart s)
      rw [Option.mem_def.mp hc] at hnot
      simpa using hnot
  · rintro ⟨before, after, rfl, hbefore, hafter⟩
    obtain ⟨c, word, rfl⟩ := List.exists_cons_of_ne_nil hne
    have hstart : trimStart (before ++ (c :: word) ++ after) = (c :: word) ++ after := by
      rw [trimStart, List.append_assoc, List.dropWhile_append_of_pos hbefore, List.cons_append,
        List.dropWhile_cons_of_neg (by simp [hword c])]
    have hrest : after.takeWhile (!isBlank ·) = [] := by
      cases after with
      | nil => rfl
      | cons d after => simp [hafter d rfl]
    rw [firstWord, hstart, List.takeWhile_append_of_pos (by simpa using hword), hrest,
      List.append_nil]

/-- The keyword is the first word of the name. -/
def Keyword.Begins (k : Keyword) (name : String) : Prop :=
  ∃ before after, name.toList = before ++ k.render.toList ++ after ∧
    (∀ c ∈ before, Text.isBlank c = true) ∧ ∀ c ∈ after.head?, Text.isBlank c = true

theorem Keyword.ofName?_eq_some_iff {k : Keyword} {word : String} :
    ofName? word = some k ↔ k.render = word := by
  constructor
  · intro h
    simpa using List.find?_some h
  · rintro rfl
    exact ofName?_render k

namespace Registry

variable {r : Registry} {s : Scenario} {k : Keyword} {name : String}
  {kept earlier : List Scenario} {inherited : List Tag}

theorem firstKeyword?_eq_some_iff : firstKeyword? name = some k ↔ k.Begins name := by
  have hne : k.render.toList ≠ [] := by cases k <;> decide
  have hall : k.render.toList.all (!Text.isBlank ·) = true := by cases k <;> decide
  have hword : ∀ c ∈ k.render.toList, Text.isBlank c = false := by simpa using hall
  rw [firstKeyword?, Keyword.ofName?_eq_some_iff, Keyword.Begins, ← Text.firstWord_eq_iff hne hword]
  constructor
  · intro h
    rw [h, String.toList_ofList]
  · intro h
    rw [h, String.ofList_toList]

theorem admissible_iff :
    Admissible name ↔ (∀ k : Keyword, ¬ k.Begins name) ∧ (Template.placeholders name).Nodup := by
  have hkeyword : firstKeyword? name = none ↔ ∀ k : Keyword, ¬ k.Begins name := by
    simp only [Option.eq_none_iff_forall_ne_some, ne_eq, firstKeyword?_eq_some_iff]
  rw [← hkeyword, ← Template.check_eq_ok_iff]
  exact ⟨fun h => ⟨h.keywordFree, h.distinct⟩, fun h => ⟨h.1, h.2⟩⟩

theorem exists_error_of_add_iff :
    (∃ fault, r.add s = .error fault) ↔
      (∃ k : Keyword, k.Begins s.name) ∨ ¬ (Template.placeholders s.name).Nodup := by
  have hname : ¬ Admissible s.name ↔
      (∃ k : Keyword, k.Begins s.name) ∨ ¬ (Template.placeholders s.name).Nodup := by
    rw [admissible_iff, not_and_or, not_forall_not]
  rw [← hname]
  refine ⟨?_, add_of_not_admissible⟩
  rintro ⟨fault, hf⟩ ha
  cases (add_of_admissible ha).symm.trans hf

theorem accepted_append (ops ops' : List Operation) :
    accepted kept (ops ++ ops') = accepted (accepted kept ops) ops' := by
  induction ops generalizing kept with
  | nil => rfl
  | cons op ops ih => cases op <;> exact ih

theorem history_concat (ops : List Operation) (op : Operation) :
    history (ops ++ [op]) = op.apply (history ops) := by
  rw [history, applyAll, List.foldl_append]
  rfl

/-- These are the tags that the last of some scenarios of one name, registered in turn, has got from
those before it. -/
structure Inherits (earlier : List Scenario) (last : Scenario) (inherited : List Tag) : Prop where
  own : ∀ t ∈ inherited, t.isDefinedIn = true ∧ ∃ s ∈ earlier, t ∈ s.tags
  new : ∀ t ∈ inherited, ∀ u ∈ (asStepDef last).tags, u.same t = false
  complete : ∀ s ∈ earlier ++ [last], ∀ p, .definedIn p ∈ s.tags →
    ((asStepDef last).tags ++ inherited).any (·.same (.definedIn p)) = true

/-- What is registered after all these scenarios of one name. -/
inductive Leaves : List Scenario → Option Scenario → Prop where
  | nothing : Leaves [] none
  | last {earlier last inherited} (h : Inherits earlier last inherited) :
      Leaves (earlier ++ [last]) (some { last with tags := (asStepDef last).tags ++ inherited })

theorem mem_tags_asStepDef {t : Tag} (ht : t.isDefinedIn = true) :
    t ∈ (asStepDef s).tags ↔ t ∈ s.tags := by
  unfold asStepDef
  split
  · rfl
  · rw [List.mem_cons, or_iff_right]
    rintro rfl
    cases ht

theorem stored_eq (r : Registry) (s : Scenario) :
    r.stored s = { s with
      tags := (asStepDef s).tags ++
        (r.get? s.name).elim [] (inheritedTags · (asStepDef s).tags) } := by
  unfold stored asStepDef
  split <;> rfl

theorem inherits_nothing (s : Scenario) : Inherits [] s [] where
  own := by simp
  new := by simp
  complete := by
    simp only [List.nil_append, List.mem_singleton, List.append_nil, forall_eq]
    exact fun p hp => Tag.any_same_definedIn ((mem_tags_asStepDef rfl).mpr hp)

/-- What a scenario inherits from the one before it comes from that one or from those before. -/
theorem Inherits.stored {last : Scenario} (h : Inherits earlier last inherited)
    (ho : r.get? s.name =
      some { last with tags := (asStepDef last).tags ++ inherited }) :
    ∃ tags, r.stored s = { s with tags := (asStepDef s).tags ++ tags } ∧
      Inherits (earlier ++ [last]) s tags := by
  have hstored := stored_eq r s
  rw [ho, Option.elim_some] at hstored
  refine ⟨_, hstored, fun t ht => ?_, fun t ht u hu => ?_, fun s' hs p hp => ?_⟩
  · obtain ⟨hmem, hkeep⟩ := List.mem_filter.mp ht
    obtain ⟨hdefined, -⟩ := Bool.and_eq_true_iff.mp hkeep
    refine ⟨hdefined, ?_⟩
    rcases List.mem_append.mp hmem with hmem | hmem
    · exact ⟨last, by simp, (mem_tags_asStepDef hdefined).mp hmem⟩
    · obtain ⟨-, s', hs, hmem⟩ := h.own t hmem
      exact ⟨s', List.mem_append_left _ hs, hmem⟩
  · obtain ⟨-, hkeep⟩ := List.mem_filter.mp ht
    obtain ⟨-, hnew⟩ := Bool.and_eq_true_iff.mp hkeep
    simp only [Bool.not_eq_true', List.any_eq_false, Bool.not_eq_true] at hnew
    exact hnew u hu
  · rcases List.mem_append.mp hs with hs | hs
    · have hany := any_same_stored ho (h.complete s' hs p hp)
      rwa [hstored] at hany
    · rw [List.mem_singleton.mp hs] at hp
      exact Tag.any_same_definedIn (List.mem_append_left _ ((mem_tags_asStepDef rfl).mpr hp))

theorem Leaves.stored (h : Leaves kept (r.get? s.name)) :
    Leaves (kept ++ [s]) (some (r.stored s)) := by
  generalize ho : r.get? s.name = old at h
  cases h with
  | nothing =>
    rw [stored_eq, ho]
    exact .last (inherits_nothing s)
  | last h =>
    obtain ⟨tags, hstored, hinherits⟩ := h.stored ho
    rw [hstored]
    exact .last hinherits

/-- Each name has what its registrations leave, one after the other. -/
theorem leaves_applyAll (ops : List Operation)
    (h : ∀ name, Leaves (kept.filter (·.name == name)) (r.get? name)) (name : String) :
    Leaves ((accepted kept ops).filter (·.name == name)) ((r.applyAll ops).get? name) := by
  induction ops generalizing r kept with
  | nil => exact h name
  | cons op ops ih =>
    cases op with
    | clear => exact ih fun _ => .nothing
    | add s =>
      refine ih fun name => ?_
      rw [get?_apply_add]
      by_cases ha : Admissible s.name
      · rw [if_pos ha, List.filter_append]
        by_cases hs : s.name = name
        · subst hs
          rw [if_pos ⟨ha, rfl⟩, List.filter_cons_of_pos (by simp)]
          exact (h s.name).stored
        · rw [if_neg fun hx => hs hx.2, List.filter_cons_of_neg (by simpa using hs),
            List.filter_nil, List.append_nil]
          exact h name
      · rw [if_neg ha, if_neg fun hx => ha hx.1]
        exact h name

theorem Leaves.eq_none {found : Option Scenario} (h : Leaves [] found) : found = none := by
  generalize hnil : ([] : List Scenario) = kept at h
  cases h with
  | nothing => rfl
  | last => exact absurd hnil.symm (List.concat_ne_nil _ _)

theorem Leaves.eq_some {last : Scenario} {found : Option Scenario}
    (h : Leaves (earlier ++ [last]) found) :
    ∃ inherited, found = some { last with tags := (asStepDef last).tags ++ inherited } ∧
      Inherits earlier last inherited := by
  generalize hkept : earlier ++ [last] = kept at h
  cases h with
  | nothing => exact absurd hkept (List.concat_ne_nil _ _)
  | last h =>
    obtain ⟨rfl, hlast⟩ := List.append_inj' hkept rfl
    cases hlast
    exact ⟨_, rfl, h⟩

/-- A registration is refused exactly if a keyword is the first word of the name or a placeholder
comes again in it, and nothing changes then. The names accepted stand in the order in which they
first were. Under a name stands the last scenario accepted for it. Only its tags differ: behind its
own come tags of earlier ones that tell meta files it does not have itself, and every meta file that
one of them told is still told. -/
theorem history_contents (ops : List Operation) :
    let r := history ops
    let kept := accepted [] ops
    (∀ s, (∃ fault, r.add s = .error fault) ↔
      (∃ k : Keyword, k.Begins s.name) ∨ ¬ (Template.placeholders s.name).Nodup) ∧
    (∀ s fault, r.add s = .error fault →
      history (ops ++ [.add s]) = r ∧ accepted [] (ops ++ [.add s]) = kept) ∧
    (∀ s r', r.add s = .ok r' →
      history (ops ++ [.add s]) = r' ∧ accepted [] (ops ++ [.add s]) = kept ++ [s]) ∧
    r.names = (kept.map (·.name)).eraseDups ∧
    ∀ name,
      (name ∉ kept.map (·.name) → r.get? name = none) ∧
      ∀ earlier last, kept.filter (·.name == name) = earlier ++ [last] →
        ∃ inherited, r.get? name = some { last with tags := (asStepDef last).tags ++ inherited } ∧
          Inherits earlier last inherited := by
  intro r kept
  have hleaves : ∀ name, Leaves (kept.filter (·.name == name)) (r.get? name) :=
    leaves_applyAll ops fun _ => .nothing
  refine ⟨fun s => exists_error_of_add_iff, fun s fault hf => ?_, fun s r' hr => ?_,
    names_applyAll rfl ops, fun name => ⟨fun hname => ?_, fun earlier last hlast => ?_⟩⟩
  · have ha : ¬ Admissible s.name := fun ha => by cases (add_of_admissible ha).symm.trans hf
    rw [history_concat, apply_add, if_neg ha, accepted_append, accepted, if_neg ha]
    exact ⟨rfl, rfl⟩
  · have ha : Admissible s.name := by
      by_contra ha
      obtain ⟨fault, hf⟩ := add_of_not_admissible (r := r) ha
      cases hf.symm.trans hr
    rw [history_concat, apply_add, if_pos ha, accepted_append, accepted, if_pos ha]
    exact ⟨Except.ok.inj ((add_of_admissible ha).symm.trans hr), rfl⟩
  · have hnone : kept.filter (·.name == name) = [] := by
      rw [List.filter_eq_nil_iff]
      intro s hs he
      exact hname (List.mem_map.mpr ⟨s, hs, by simpa using he⟩)
    exact (hnone ▸ hleaves name).eq_none
  · exact (hlast ▸ hleaves name).eq_some

/-- Three registrations of one name, the last of which spells the file of the first in another way,
and two that are refused. -/
theorem history_contents_greet :
    let greet (tags : List Tag) : Scenario := { name := "I greet <whom>", tags }
    let first := greet [.definedIn "lib/a.meta"]
    let second := greet [.stepDef, .definedIn "b.meta"]
    let third := greet [.definedIn "lib//a.meta", .ignore]
    let r := history [.add first, .add { name := " When I go" }, .add { name := "I wait" },
      .add second, .add { name := "<a> and <a>" }, .add third]
    r.names = ["I greet <whom>", "I wait"] ∧
    (∃ fault, r.add { name := "But not" } = .error fault) ∧
    ∃ inherited, r.get? "I greet <whom>" = some { third with
        tags := [.stepDef, .definedIn "lib//a.meta", .ignore] ++ inherited } ∧
      inherited.any (·.same (.definedIn "b.meta")) = true ∧
      .definedIn "lib/a.meta" ∉ inherited := by
  intro greet first second third r
  have hgreet : Admissible "I greet <whom>" := by decide +kernel
  have hwait : Admissible "I wait" := by decide +kernel
  have hwhen : ¬ Admissible " When I go" := by decide +kernel
  have hand : ¬ Admissible "<a> and <a>" := by decide +kernel
  have hkept : accepted [] [.add first, .add { name := " When I go" }, .add { name := "I wait" },
      .add second, .add { name := "<a> and <a>" }, .add third] =
      [first, { name := "I wait" }, second, third] := by
    simp [accepted, first, second, third, greet, hgreet, hwait, hwhen, hand]
  obtain ⟨hrefused, -, -, hnames, hcontents⟩ := history_contents
    [.add first, .add { name := " When I go" }, .add { name := "I wait" }, .add second,
      .add { name := "<a> and <a>" }, .add third]
  rw [hkept] at hnames hcontents
  have hbut : Keyword.but.Begins "But not" :=
    ⟨[], " not".toList, rfl, by simp, by rintro _ ⟨⟩; decide⟩
  obtain ⟨inherited, hget, hinherits⟩ :=
    (hcontents "I greet <whom>").2 [first, second] third rfl
  refine ⟨hnames, (hrefused _).mpr (.inl ⟨.but, hbut⟩), inherited, hget, ?_, fun hmem => ?_⟩
  · have htold := hinherits.complete second (by simp) "b.meta" (by simp [second, greet])
    rw [List.any_append, Bool.or_eq_true] at htold
    exact htold.resolve_left (by decide +kernel)
  · have hsame := hinherits.new _ hmem (.definedIn "lib//a.meta") (by decide)
    exact absurd hsame (by decide +kernel)

end Registry

end Gherkin
