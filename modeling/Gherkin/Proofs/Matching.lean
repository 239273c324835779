import Gherkin.Template
import Mathlib.Data.List.Lex

/-! Which values a template takes from an expression. A template spells an expression in at most one
way in which every value ends as early as what follows its placeholder allows, and matching finds
that way. -/
namespace Gherkin.Template

/-- The names of the placeholders among some segments. -/
def names (ss : List Segment) : List String := ss.filterMap Segment.name?

/-- The text that the segments make with these values for their placeholders, in order. -/
inductive Spells : List Segment → List (List Char) → List Char → Prop
  | nil : Spells [] [] []
  | literal {ss vs s} (text : List Char) : Spells ss vs s →
      Spells (.literal text :: ss) vs (text ++ s)
  | placeholder {ss vs s} (name : String) (v : List Char) : Spells ss vs s →
      Spells (.placeholder name :: ss) (v :: vs) (v ++ s)

/-- Where a value may end, given what follows its placeholder: at once before another placeholder,
and before a literal where that literal first occurs. -/
def EndsAt (v : List Char) : List Segment → Prop
  | .placeholder _ :: _ => v = []
  | .literal text :: _ => Text.EndsAtFirst text v
  | [] => True

def Leftmost : List Segment → List (List Char) → Prop
  | .literal _ :: ss, vs => Leftmost ss vs
  | .placeholder _ :: ss, v :: vs => EndsAt v ss ∧ Leftmost ss vs
  | _, _ => True

/-- The text is made of the segments, and every value ends as early as it may. -/
structure Decomposes (ss : List Segment) (vs : List (List Char)) (s : List Char) : Prop where
  spells : Spells ss vs s
  leftmost : Leftmost ss vs

variable {ss : List Segment} {vs ws : List (List Char)} {s t : List Char} {pending : Option String}

theorem Spells.length_eq (h : Spells ss vs s) : (names ss).length = vs.length := by
  induction h with
  | nil => rfl
  | literal _ _ ih => exact ih
  | placeholder _ _ _ ih => exact congrArg (· + 1) ih

theorem Spells.unique (h : Spells ss vs s) (h' : Spells ss vs t) : s = t := by
  induction h generalizing t with
  | nil => cases h'; rfl
  | literal text _ ih => cases h' with | literal _ h' => rw [ih h']
  | placeholder name v _ ih => cases h' with | placeholder _ _ h' => rw [ih h']

theorem Spells.infix_of_mem {text : List Char} (h : Spells ss vs s)
    (hm : .literal text ∈ ss) : text <:+: s := by
  induction h with
  | nil => cases hm
  | literal text' _ ih =>
    rcases List.mem_cons.mp hm with he | hm
    · cases he
      exact (List.prefix_append text _).isInfix
    · exact (ih hm).trans (List.suffix_append text' _).isInfix
  | placeholder name v _ ih =>
    rcases List.mem_cons.mp hm with he | hm
    · cases he
    · exact (ih hm).trans (List.suffix_append v _).isInfix

theorem Spells.literalsOccur (h : Spells ss vs s) : literalsOccur ss s = true := by
  simp only [Template.literalsOccur, List.all_eq_true]
  rintro (text | name) hm
  · exact Text.occurs_iff.mpr (h.infix_of_mem hm)
  · rfl

theorem decomposes_literal_iff {text : List Char} :
    Decomposes (.literal text :: ss) vs s ↔ ∃ rest, s = text ++ rest ∧ Decomposes ss vs rest := by
  constructor
  · rintro ⟨_ | ⟨_, h⟩, hl⟩
    exact ⟨_, rfl, h, hl⟩
  · rintro ⟨rest, rfl, h, hl⟩
    exact ⟨.literal text h, hl⟩

theorem decomposes_placeholder_iff {name : String} :
    Decomposes (.placeholder name :: ss) vs s ↔
      ∃ v vs' rest, vs = v :: vs' ∧ s = v ++ rest ∧ EndsAt v ss ∧ Decomposes ss vs' rest := by
  constructor
  · rintro ⟨_ | _ | ⟨_, v, h⟩, he, hl⟩
    exact ⟨v, _, _, rfl, rfl, he, h, hl⟩
  · rintro ⟨v, vs', rest, rfl, rfl, he, h, hl⟩
    exact ⟨.placeholder name v h, he, hl⟩

theorem decomposes_nil_iff : Decomposes [] vs s ↔ vs = [] ∧ s = [] := by
  constructor
  · rintro ⟨⟨⟩, -⟩
    exact ⟨rfl, rfl⟩
  · rintro ⟨rfl, rfl⟩
    exact ⟨.nil, trivial⟩

/-- The pending placeholder in front of the segments that are left. -/
def withPending : Option String → List Segment → List Segment
  | none, ss => ss
  | some name, ss => .placeholder name :: ss

/-- By induction on the segments that are left; the pending placeholder counts as one of them. -/
theorem scan_eq_some_iff {captured : List (String × List Char)} :
    scan pending ss s = some captured ↔
      ∃ vs, Decomposes (withPending pending ss) vs s ∧
        captured = (names (withPending pending ss)).zip vs := by
  induction ss generalizing pending s captured with
  | nil =>
    cases pending with
    | none => cases s <;> simp [scan, withPending, decomposes_nil_iff, names, eq_comm]
    | some name =>
      simp [scan, withPending, decomposes_placeholder_iff, decomposes_nil_iff, names,
        Segment.name?, EndsAt, eq_comm]
  | cons x ss ih =>
    cases x with
    | placeholder name =>
      cases pending with
      | none => simpa [scan, withPending] using @ih s (some name) captured
      | some before =>
        simp only [scan, Option.map_eq_some_iff, ih, withPending]
        constructor
        · rintro ⟨_, ⟨vs, h, rfl⟩, rfl⟩
          exact ⟨[] :: vs, decomposes_placeholder_iff.mpr ⟨[], vs, s, rfl, rfl, rfl, h⟩, rfl⟩
        · rintro ⟨vs, h, rfl⟩
          obtain ⟨_, vs, rest, rfl, rfl, rfl, hd⟩ := decomposes_placeholder_iff.mp h
          exact ⟨_, ⟨vs, hd, rfl⟩, rfl⟩
    | literal text =>
      cases pending with
      | none =>
        simp only [scan, Option.bind_eq_some_iff, Text.afterStart?_eq_some_iff, ih, withPending,
          decomposes_literal_iff]
        constructor
        · rintro ⟨rest, rfl, vs, h, rfl⟩
          exact ⟨vs, ⟨rest, rfl, h⟩, rfl⟩
        · rintro ⟨vs, ⟨rest, rfl, h⟩, rfl⟩
          exact ⟨rest, rfl, vs, h, rfl⟩
      | some name =>
        simp only [scan, Option.bind_eq_some_iff, Option.map_eq_some_iff, Prod.exists,
          Text.splitFirst?_eq_some_iff, ih, withPending]
        constructor
        · rintro ⟨v, rest, ⟨rfl, hv⟩, _, ⟨vs, h, rfl⟩, rfl⟩
          have hs : v ++ text ++ rest = v ++ (text ++ rest) := List.append_assoc ..
          have hl : Decomposes (.literal text :: ss) vs (text ++ rest) :=
            decomposes_literal_iff.mpr ⟨rest, rfl, h⟩
          exact ⟨v :: vs, decomposes_placeholder_iff.mpr ⟨v, vs, _, rfl, hs, hv, hl⟩, rfl⟩
        · rintro ⟨vs, h, rfl⟩
          obtain ⟨v, vs, _, rfl, rfl, hv, hl⟩ := decomposes_placeholder_iff.mp h
          obtain ⟨rest, rfl, hd⟩ := decomposes_literal_iff.mp hl
          exact ⟨v, rest, ⟨by simp, hv⟩, _, ⟨vs, hd, rfl⟩, rfl⟩

theorem Decomposes.unique (h : Decomposes ss vs s) (h' : Decomposes ss ws s) : vs = ws := by
  have hv : scan none ss s = some ((names ss).zip vs) := scan_eq_some_iff.mpr ⟨vs, h, rfl⟩
  have hw : scan none ss s = some ((names ss).zip ws) := scan_eq_some_iff.mpr ⟨ws, h', rfl⟩
  have he : (names ss).zip vs = (names ss).zip ws := Option.some.inj (hv.symm.trans hw)
  calc vs = ((names ss).zip vs).map Prod.snd :=
        (List.map_snd_zip (Nat.le_of_eq h.spells.length_eq.symm)).symm
    _ = ((names ss).zip ws).map Prod.snd := by rw [he]
    _ = ws := List.map_snd_zip (Nat.le_of_eq h'.spells.length_eq.symm)

/-- The values that pairs give to the placeholders of some segments, in order. -/
def valuesFrom (params : Pairs) (ss : List Segment) : List (List Char) :=
  (names ss).map fun name => ((params.get? name).getD "").toList

theorem spells_fill {params : Pairs} (h : ∀ name ∈ names ss, (params.get? name).isSome) :
    Spells ss (valuesFrom params ss) (ss.flatMap (Segment.fill params)) := by
  induction ss with
  | nil => exact .nil
  | cons x ss ih =>
    cases x with
    | literal text => exact .literal text (ih h)
    | placeholder name =>
      obtain ⟨hn, hns⟩ := List.forall_mem_cons.mp h
      obtain ⟨value, hv⟩ := Option.isSome_iff_exists.mp hn
      have hfill : Segment.fill params (.placeholder name) = value.toList := by
        simp [Segment.fill, hv]
      have hvalue : valuesFrom params (.placeholder name :: ss) =
          value.toList :: valuesFrom params ss := by
        simp [valuesFrom, names, Segment.name?, hv]
      rw [List.flatMap_cons, hfill, hvalue]
      exact .placeholder name value.toList (ih hns)

theorem valuesFrom_zip (hd : (names ss).Nodup) (hl : (names ss).length = vs.length) :
    valuesFrom ((names ss).zip (vs.map String.ofList)) ss = vs := by
  have hg : (names ss).map (Pairs.get? ((names ss).zip (vs.map String.ofList))) =
      (vs.map String.ofList).map some := Pairs.get?_zip hd (by simpa using hl)
  calc valuesFrom ((names ss).zip (vs.map String.ofList)) ss
      = ((names ss).map (Pairs.get? ((names ss).zip (vs.map String.ofList)))).map
          fun value => (value.getD "").toList := by rw [List.map_map]; rfl
    _ = vs := by simp [hg, Function.comp_def]

/-- No literal stands right behind another one. -/
def Separated : List Segment → Prop
  | .literal _ :: .literal _ :: _ => False
  | _ :: ss => Separated ss
  | [] => True

theorem Separated.tail {x : Segment} (h : Separated (x :: ss)) : Separated ss := by
  unfold Separated at h
  split at h
  · exact h.elim
  · next he => exact (List.cons.inj he).2 ▸ h
  · next he => cases he

theorem separated_consLiteral (c : Char) (h : Separated ss) : Separated (consLiteral c ss) := by
  rcases ss with _ | ⟨_ | _, ss⟩
  · trivial
  · rcases ss with _ | ⟨_ | _, ss⟩
    · trivial
    · exact h
    · exact h
  · exact h

theorem separated_segments (template : List Char) : Separated (segments template) := by
  fun_induction segments template with
  | case1 => trivial
  | case2 s name rest _ ih => exact ih
  | case3 s _ ih => exact separated_consLiteral '<' ih
  | case4 c s _ ih => exact separated_consLiteral c ih

/-- A value may be cut where its end belongs, if a placeholder stands somewhere behind to take what
is left over. -/
theorem exists_endsAt {rest : List Char} (hs : Separated ss)
    (hl : ∀ text, ss.getLast? ≠ some (.literal text)) (h : Spells ss ws rest) (w : List Char) :
    ∃ v left ws', w = v ++ left ∧ EndsAt v ss ∧ Spells ss ws' (left ++ rest) ∧
      (left = [] → ws' = ws) := by
  cases h with
  | nil => exact ⟨w, [], [], by simp, trivial, .nil, fun _ => rfl⟩
  | @placeholder _ ws _ name w' h =>
    refine ⟨[], w, (w ++ w') :: ws, rfl, rfl, ?_, fun hw => ?_⟩
    · rw [← List.append_assoc]
      exact .placeholder name (w ++ w') h
    · rw [hw, List.nil_append]
  | literal text h =>
    cases h with
    | nil => exact absurd rfl (hl text)
    | literal => exact hs.elim
    | @placeholder ss ws rest name w' h =>
      have hoccurs : Text.splitFirst? text (w ++ text ++ (w' ++ rest)) ≠ none := by
        rw [ne_eq, Text.splitFirst?_eq_none_iff]
        exact fun hn => hn ⟨w, w' ++ rest, rfl⟩
      obtain ⟨⟨v, r⟩, hr⟩ := Option.ne_none_iff_exists'.mp hoccurs
      obtain ⟨he, hv⟩ := Text.splitFirst?_eq_some_iff.mp hr
      have hprefix : v <+: w ++ text ++ (w' ++ rest) := ⟨text ++ r, by simp [he]⟩
      obtain ⟨left, rfl⟩ : v <+: w :=
        List.prefix_of_prefix_length_le hprefix ⟨text ++ (w' ++ rest), by simp⟩ (hv.le he.symm)
      have hcut : left ++ (text ++ (w' ++ rest)) = text ++ r := by simpa using he
      obtain ⟨tail, htail⟩ : text <+: left ++ text :=
        List.prefix_of_prefix_length_le ⟨r, hcut.symm⟩ ⟨w' ++ rest, by simp⟩ (by simp)
      refine ⟨v, left, (tail ++ w') :: ws, rfl, hv, ?_, ?_⟩
      · rw [← List.append_assoc, ← htail, List.append_assoc, ← List.append_assoc tail]
        exact .literal text (.placeholder name (tail ++ w') h)
      · rintro rfl
        simp_all

/-- Every text that the segments spell has a decomposition, and one whose values are not longer, if
a placeholder stands at the end. -/
theorem exists_decomposes (hs : Separated ss) (hl : ∀ text, ss.getLast? ≠ some (.literal text))
    (h : Spells ss ws s) :
    ∃ vs, Decomposes ss vs s ∧ vs.map List.length ≤ ws.map List.length := by
  induction ss generalizing ws s with
  | nil =>
    cases h
    exact ⟨[], ⟨.nil, trivial⟩, le_refl _⟩
  | cons x ss ih =>
    have hss : Separated ss := hs.tail
    have hlast : ∀ text, ss.getLast? ≠ some (.literal text) := by
      intro text he
      apply hl text
      rw [List.getLast?_cons, he]
      rfl
    cases h with
    | literal text h =>
      obtain ⟨vs, hd, hle⟩ := ih hss hlast h
      exact ⟨vs, decomposes_literal_iff.mpr ⟨_, rfl, hd⟩, hle⟩
    | @placeholder _ ws rest name w h =>
      obtain ⟨v, left, ws', rfl, hv, h', hsame⟩ := exists_endsAt hss hlast h w
      obtain ⟨vs, hd, hle⟩ := ih hss hlast h'
      have hs : v ++ left ++ rest = v ++ (left ++ rest) := List.append_assoc ..
      refine ⟨v :: vs, decomposes_placeholder_iff.mpr ⟨v, vs, _, rfl, hs, hv, hd⟩, ?_⟩
      rw [List.map_cons, List.map_cons]
      cases left with
      | nil =>
        rw [List.append_nil, ← hsame rfl]
        exact List.cons_le_cons _ hle
      | cons c left => exact le_of_lt (.rel (by simp))

theorem firstRepeat?_eq_none_iff {seen xs : List String} :
    firstRepeat? seen xs = none ↔ xs.Nodup ∧ ∀ x ∈ xs, x ∉ seen := by
  induction xs generalizing seen with
  | nil => simp [firstRepeat?]
  | cons x xs ih =>
    by_cases hx : x ∈ seen
    · simp [firstRepeat?, hx]
    · simp only [firstRepeat?, List.contains_eq_mem, decide_eq_true_eq, hx, if_false, ih,
        List.nodup_cons, List.mem_cons, not_or, forall_eq_or_imp, not_false_eq_true, true_and]
      constructor
      · rintro ⟨hd, hn⟩
        exact ⟨⟨fun hm => (hn x hm).1 rfl, hd⟩, fun y hy => (hn y hy).2⟩
      · rintro ⟨⟨hm, hd⟩, hn⟩
        exact ⟨hd, fun y hy => ⟨fun he => hm (he ▸ hy), hn y hy⟩⟩

variable {template expression : String}

theorem check_eq_ok_iff : check template = .ok () ↔ (placeholders template).Nodup := by
  have hrepeat : firstRepeat? [] (placeholders template) = none ↔
      (placeholders template).Nodup := by simp [firstRepeat?_eq_none_iff]
  unfold check
  cases h : firstRepeat? [] (placeholders template) <;> simp_all

theorem any_isPlaceholder_iff : ss.any Segment.isPlaceholder = true ↔ names ss ≠ [] := by
  simp [names, List.filterMap_eq_nil_iff, Segment.isPlaceholder, Option.isSome_iff_ne_none]

theorem substitute_of_decomposes (hd : (placeholders template).Nodup)
    (h : Decomposes (segments template.toList) vs expression.toList) :
    substitute template ((placeholders template).zip (vs.map String.ofList)) = expression := by
  have hl : (placeholders template).length = vs.length := h.spells.length_eq
  have hsome : ∀ name ∈ placeholders template,
      (Pairs.get? ((placeholders template).zip (vs.map String.ofList)) name).isSome := by
    intro name hm
    have hmem := List.mem_map_of_mem
      (f := Pairs.get? ((placeholders template).zip (vs.map String.ofList))) hm
    rw [Pairs.get?_zip hd (by simpa using hl)] at hmem
    obtain ⟨value, -, hv⟩ := List.mem_map.mp hmem
    rw [← hv]
    rfl
  have hs := spells_fill hsome
  have hvs : valuesFrom ((placeholders template).zip (vs.map String.ofList))
      (segments template.toList) = vs := valuesFrom_zip hd hl
  rw [hvs] at hs
  rw [substitute, hs.unique h.spells, String.ofList_toList]

theorem toParams_zip (ns : List String) (vs : List (List Char)) :
    toParams (ns.zip vs) = ns.zip (vs.map String.ofList) := by
  rw [toParams, List.zip_map_right]
  rfl

/-- Matching is the scan alone: what the scan accepts passes the tests before and behind it. -/
theorem matching_eq_scan (hd : (placeholders template).Nodup) (hp : placeholders template ≠ []) :
    matching template expression =
      .ok ((scan none (segments template.toList) expression.toList).map toParams) := by
  have hany : (segments template.toList).any Segment.isPlaceholder = true :=
    any_isPlaceholder_iff.mpr hp
  simp only [matching, check_eq_ok_iff.mpr hd, hany, Bool.true_and, bind, Except.bind]
  cases hscan : scan none (segments template.toList) expression.toList with
  | none => simp
  | some captured =>
    obtain ⟨vs, h, rfl⟩ := scan_eq_some_iff.mp hscan
    have hoccur : literalsOccur (segments template.toList) expression.toList = true :=
      h.spells.literalsOccur
    have hparams : toParams ((names (segments template.toList)).zip vs) =
        (placeholders template).zip (vs.map String.ofList) := toParams_zip _ vs
    simp [withPending, hoccur, hparams, substitute_of_decomposes hd h]

theorem matching_eq_some_iff (hd : (placeholders template).Nodup) (hp : placeholders template ≠ [])
    {params : Pairs} :
    matching template expression = .ok (some params) ↔
      ∃ vs, Decomposes (segments template.toList) vs expression.toList ∧
        params = (placeholders template).zip (vs.map String.ofList) := by
  rw [matching_eq_scan hd hp, Except.ok.injEq, Option.map_eq_some_iff]
  simp only [scan_eq_some_iff]
  constructor
  · rintro ⟨_, ⟨vs, h, rfl⟩, rfl⟩
    exact ⟨vs, h, toParams_zip _ vs⟩
  · rintro ⟨vs, h, rfl⟩
    exact ⟨_, ⟨vs, h, rfl⟩, toParams_zip _ vs⟩

theorem matching_eq_none_iff (hd : (placeholders template).Nodup)
    (hp : placeholders template ≠ []) :
    matching template expression = .ok none ↔
      ¬ ∃ vs, Decomposes (segments template.toList) vs expression.toList := by
  rw [matching_eq_scan hd hp, Except.ok.injEq, Option.map_eq_none_iff,
    Option.eq_none_iff_forall_ne_some]
  constructor
  · rintro hn ⟨vs, h⟩
    exact hn _ (scan_eq_some_iff.mpr ⟨vs, h, rfl⟩)
  · rintro hn captured hc
    obtain ⟨vs, h, -⟩ := scan_eq_some_iff.mp hc
    exact hn ⟨vs, h⟩

theorem lengths_zip {ns : List String} (hl : ns.length = vs.length) :
    (ns.zip (vs.map String.ofList)).map (·.2.length) = vs.map List.length :=
  calc (ns.zip (vs.map String.ofList)).map (·.2.length)
      = ((ns.zip (vs.map String.ofList)).map Prod.snd).map String.length := by
        rw [List.map_map]; rfl
    _ = vs.map List.length := by
        rw [List.map_snd_zip (by simp [hl]), List.map_map]
        simp [Function.comp_def]

/-- With a placeholder at its end a template matches all that can be made from it, with the shortest
values from left to right. -/
theorem matching_substitute {given : Pairs}
    (hlast : ∀ text, (segments template.toList).getLast? ≠ some (.literal text))
    (hg : ∀ name ∈ placeholders template, (given.get? name).isSome) :
    ∃ vs, Decomposes (segments template.toList) vs (substitute template given).toList ∧
      vs.map List.length ≤
        (placeholders template).map fun name => ((given.get? name).getD "").length := by
  obtain ⟨vs, h, hle⟩ :=
    exists_decomposes (separated_segments template.toList) hlast (spells_fill hg)
  have hlengths : (valuesFrom given (segments template.toList)).map List.length =
      (placeholders template).map fun name => ((given.get? name).getD "").length := by
    rw [valuesFrom, List.map_map]
    exact List.map_congr_left fun _ _ => String.length_toList
  refine ⟨vs, ?_, hlengths ▸ hle⟩
  rwa [substitute, String.toList_ofList]

/-- A template whose placeholders differ takes from an expression the values of the one
decomposition in which each value ends as early as it may, and matches nothing else. If a
placeholder stands at its end, it matches whatever can be made from it, with the values that are the
shortest from left to right. -/
theorem matching_leftmost (template expression : String) (hd : (placeholders template).Nodup)
    (hp : placeholders template ≠ []) :
    let Fits vs := Decomposes (segments template.toList) vs expression.toList
    (∀ params, matching template expression = .ok (some params) ↔
      ∃ vs, Fits vs ∧ params = (placeholders template).zip (vs.map String.ofList)) ∧
    (matching template expression = .ok none ↔ ¬ ∃ vs, Fits vs) ∧
    (∀ vs ws, Fits vs → Fits ws → vs = ws) ∧
    ((∃ name, (segments template.toList).getLast? = some (.placeholder name)) →
      ∀ given : Pairs, (∀ name ∈ placeholders template, (given.get? name).isSome) →
        substitute template given = expression →
        ∃ params, matching template expression = .ok (some params) ∧
          substitute template params = expression ∧
          params.map (·.2.length) ≤
            (placeholders template).map fun name => ((given.get? name).getD "").length) := by
  intro Fits
  refine ⟨fun params => matching_eq_some_iff hd hp, matching_eq_none_iff hd hp,
    fun vs ws hv hw => hv.unique hw, ?_⟩
  rintro ⟨name, hlast⟩ given hg rfl
  obtain ⟨vs, h, hle⟩ := matching_substitute (by rw [hlast]; simp) hg
  refine ⟨_, (matching_eq_some_iff hd hp).mpr ⟨vs, h, rfl⟩, substitute_of_decomposes hd h, ?_⟩
  have hl : (placeholders template).length = vs.length := h.spells.length_eq
  rw [lengths_zip hl]
  exact hle

theorem matching_leftmost_page :
    ∃ params, matching "go to <page> page and <next>" "go to a page page and b" =
        .ok (some params) ∧
      substitute "go to <page> page and <next>" params = "go to a page page and b" ∧
      params.map (·.2.length) ≤ [6, 1] := by
  obtain ⟨params, hm, hs, hle⟩ :=
    (matching_leftmost "go to <page> page and <next>" "go to a page page and b" (by decide +kernel)
      (by decide +kernel)).2.2.2 ⟨"next", by decide +kernel⟩
      [("page", "a page"), ("next", "b")] (by decide +kernel) (by decide +kernel)
  have hnames : placeholders "go to <page> page and <next>" = ["page", "next"] := by decide +kernel
  rw [hnames] at hle
  exact ⟨params, hm, hs, hle⟩

end Gherkin.Template
