import Gherkin.Proofs.Matching
import Gherkin.Proofs.Substitution
import Gherkin.Template.Cursor

/-! The segments of a template. They spell the template, and among the lists of segments that do
they are the only canonical one. The cursor that cuts them off never stands inside a character. -/
namespace Gherkin.Template

variable {template text s before rest : List Char} {c : Char} {ss : List Segment} {params : Pairs}

/-- A placeholder stands somewhere in the text. -/
def Encloses (text : List Char) : Prop :=
  ∃ name, Nameable name ∧ '<' :: (name ++ ['>']) <:+: text

/-- Segments that leave nothing to be cut: literal texts that are not empty, do not meet and have no
placeholder inside, and placeholders that can be read. -/
structure Canonical (ss : List Segment) : Prop where
  nonempty : ∀ text, .literal text ∈ ss → text ≠ []
  separated : Separated ss
  nameable : ∀ name, .placeholder name ∈ ss → Nameable name.toList
  plain : ∀ text, .literal text ∈ ss → ¬ Encloses text

theorem opens_iff : Opens s ↔ ∃ name, Nameable name ∧ '<' :: (name ++ ['>']) <+: s := by
  constructor
  · rintro ⟨name, rest, hname, rfl⟩
    exact ⟨name, hname, rest, by simp⟩
  · rintro ⟨name, hname, rest, rfl⟩
    exact ⟨name, rest, hname, by simp⟩

theorem Opens.append (h : Opens s) (rest : List Char) : Opens (s ++ rest) := by
  obtain ⟨name, tail, hname, rfl⟩ := h
  exact ⟨name, tail ++ rest, hname, by simp⟩

theorem encloses_cons : Encloses (c :: s) ↔ Opens (c :: s) ∨ Encloses s := by
  simp only [Encloses, opens_iff, List.infix_cons_iff, and_or_left, exists_or]

theorem not_encloses_singleton (c : Char) : ¬ Encloses [c] := by
  rintro ⟨name, hname, hinfix⟩
  have hlength := hinfix.length_le
  have hpos := List.length_pos_of_ne_nil hname.nonempty
  simp only [List.length_cons, List.length_append, List.length_nil] at hlength
  omega

/-- A placeholder that begins before a bracket ends before it, too, since its name has none. -/
theorem Opens.of_append (h : Opens (text ++ rest)) (hne : text ≠ [])
    (hrest : ∀ c ∈ rest.head?, c = '<') : Opens text := by
  obtain ⟨name, tail, hname, he⟩ := h
  obtain ⟨c, text, rfl⟩ := List.exists_cons_of_ne_nil hne
  simp only [List.cons_append, List.cons.injEq] at he
  obtain ⟨rfl, he⟩ := he
  have hwhole : text ++ rest = (name ++ ['>']) ++ tail := by simpa using he
  rcases List.append_eq_append_iff.mp hwhole with ⟨more, hclosed, hmore⟩ | ⟨more, rfl, -⟩
  · cases more with
    | nil => exact ⟨name, [], hname, by simpa using hclosed.symm⟩
    | cons d more =>
      have hd : d = '<' := hrest d (by simp [hmore])
      have hmem : '<' ∈ name ++ ['>'] := by simp [hclosed, hd]
      exact absurd (by simpa using hmem) hname.noOpening
  · exact ⟨name, more, hname, by simp⟩

/-- Text in which no placeholder begins is put in front of the segments that follow. -/
theorem segments_append (h : ∀ u v, text = u ++ v → v ≠ [] → ¬ Opens (v ++ rest)) :
    segments (text ++ rest) = text.foldr consLiteral (segments rest) := by
  induction text with
  | nil => rfl
  | cons c text ih =>
    have hhere : ¬ Opens (c :: (text ++ rest)) := h [] (c :: text) rfl (List.cons_ne_nil _ _)
    have htail := ih fun u v huv => h (c :: u) v (by rw [huv, List.cons_append])
    rw [List.cons_append, segments_cons hhere, htail, List.foldr_cons]

theorem segments_append_of_not_mem (h : '<' ∉ text) (rest : List Char) :
    segments (text ++ rest) = text.foldr consLiteral (segments rest) := by
  refine segments_append ?_
  rintro u v rfl hv ⟨name, tail, -, he⟩
  obtain ⟨c, v, rfl⟩ := List.exists_cons_of_ne_nil hv
  exact h (by simp [(List.cons.inj he).1])

theorem foldr_consLiteral (text : List Char) (hss : ∀ t, ss.head? ≠ some (.literal t)) :
    text.foldr consLiteral ss = literal text ++ ss := by
  induction text with
  | nil => rfl
  | cons c text ih =>
    rw [List.foldr_cons, ih]
    cases text with
    | nil =>
      rcases ss with _ | ⟨t | _, ss⟩
      · rfl
      · exact absurd rfl (hss t)
      · rfl
    | cons => rfl

theorem Separated.head?_ne (h : Separated (.literal text :: ss)) :
    ∀ t, ss.head? ≠ some (.literal t) := by
  rintro t he
  obtain ⟨ss, rfl⟩ := List.head?_eq_some_iff.mp he
  exact h

namespace Canonical

theorem tail {x : Segment} (h : Canonical (x :: ss)) : Canonical ss where
  nonempty _ hm := h.nonempty _ (List.mem_cons_of_mem _ hm)
  separated := h.separated.tail
  nameable _ hm := h.nameable _ (List.mem_cons_of_mem _ hm)
  plain _ hm := h.plain _ (List.mem_cons_of_mem _ hm)

theorem nil : Canonical [] := ⟨by simp, trivial, by simp, by simp⟩

theorem cons_placeholder {name : String} (hname : Nameable name.toList) (h : Canonical ss) :
    Canonical (.placeholder name :: ss) where
  nonempty t hm := h.nonempty t (by simpa using hm)
  separated := h.separated
  nameable n hm := by
    rcases List.mem_cons.mp hm with he | hm
    · cases he
      exact hname
    · exact h.nameable n hm
  plain t hm := h.plain t (by simpa using hm)

theorem cons_literal (hne : text ≠ []) (hplain : ¬ Encloses text)
    (hseparated : Separated (.literal text :: ss)) (h : Canonical ss) :
    Canonical (.literal text :: ss) where
  nonempty t hm := by
    rcases List.mem_cons.mp hm with he | hm
    · cases he
      exact hne
    · exact h.nonempty t hm
  separated := hseparated
  nameable n hm := h.nameable n (by simpa using hm)
  plain t hm := by
    rcases List.mem_cons.mp hm with he | hm
    · cases he
      exact hplain
    · exact h.plain t hm

/-- A character that begins no placeholder may be put in front. -/
theorem consLiteral (h : Canonical ss) (hc : ¬ Opens (c :: ss.flatMap Segment.toText)) :
    Canonical (consLiteral c ss) := by
  have hseparated := separated_consLiteral c h.separated
  have hone := not_encloses_singleton c
  rcases ss with _ | ⟨text | name, ss⟩
  · exact cons_literal (List.cons_ne_nil _ _) hone hseparated h
  · have hplain : ¬ Encloses (c :: text) := by
      rw [encloses_cons, not_or]
      exact ⟨fun hopens => hc (hopens.append _), h.plain text List.mem_cons_self⟩
    exact cons_literal (List.cons_ne_nil _ _) hplain hseparated h.tail
  · exact cons_literal (List.cons_ne_nil _ _) hone hseparated h

/-- Only brackets follow a literal text. -/
theorem head_flatMap (h : ∀ t, ss.head? ≠ some (.literal t)) :
    ∀ c ∈ (ss.flatMap Segment.toText).head?, c = '<' := by
  rcases ss with _ | ⟨t | name, ss⟩
  · simp
  · exact absurd rfl (h t)
  · simp [Segment.toText, eq_comm]

/-- Canonical segments are found again in the text that they spell. -/
theorem segments_eq (h : Canonical ss) : segments (ss.flatMap Segment.toText) = ss := by
  induction ss with
  | nil => simp [segments]
  | cons x ss ih =>
    have hss := ih h.tail
    rw [List.flatMap_cons]
    cases x with
    | placeholder name =>
      have hname := h.nameable name List.mem_cons_self
      rw [Segment.toText, List.cons_append, List.append_assoc, List.singleton_append,
        segments_placeholder hname, hss, String.ofList_toList]
    | literal text =>
      have hhead := h.separated.head?_ne
      have hplain := h.plain text List.mem_cons_self
      rw [Segment.toText, segments_append, hss, foldr_consLiteral text hhead, literal,
        if_neg (by simpa using h.nonempty text List.mem_cons_self)]
      · rfl
      · rintro u v rfl hv hopens
        obtain ⟨name, hname, hprefix⟩ := opens_iff.mp (hopens.of_append hv (head_flatMap hhead))
        exact hplain ⟨name, hname, hprefix.isInfix.trans (List.suffix_append u v).isInfix⟩

end Canonical

theorem flatMap_toText_consLiteral (c : Char) (ss : List Segment) :
    (consLiteral c ss).flatMap Segment.toText = c :: ss.flatMap Segment.toText := by
  rcases ss with _ | ⟨_ | _, ss⟩ <;> rfl

/-- Nothing of a template is lost. -/
theorem flatMap_toText_segments (s : List Char) : (segments s).flatMap Segment.toText = s := by
  fun_induction segments s with
  | case1 => rfl
  | case2 s name rest hsome ih =>
    obtain ⟨rfl, -⟩ := name?_eq_some_iff.mp hsome
    simp [Segment.toText, ih]
  | case3 s _ ih => rw [flatMap_toText_consLiteral, ih]
  | case4 c s _ ih => rw [flatMap_toText_consLiteral, ih]

theorem canonical_segments (s : List Char) : Canonical (segments s) := by
  fun_induction segments s with
  | case1 => exact .nil
  | case2 s name rest hsome ih =>
    obtain ⟨-, hname⟩ := name?_eq_some_iff.mp hsome
    exact .cons_placeholder (by simpa using hname) ih
  | case3 s hnone ih =>
    refine ih.consLiteral ?_
    rw [flatMap_toText_segments]
    rintro ⟨name, rest, hname, he⟩
    cases (name?_eq_some_iff.mpr ⟨(List.cons.inj he).2, hname⟩).symm.trans hnone
  | case4 c s hc ih =>
    refine ih.consLiteral ?_
    rintro ⟨name, rest, -, he⟩
    exact hc (List.cons.inj he).1

/-- A template has one canonical list of segments. -/
theorem segments_eq_iff : segments s = ss ↔ Canonical ss ∧ ss.flatMap Segment.toText = s := by
  constructor
  · rintro rfl
    exact ⟨canonical_segments s, flatMap_toText_segments s⟩
  · rintro ⟨h, rfl⟩
    exact h.segments_eq

/-- What is replaced by itself stays the same. -/
theorem substitute_eq_self {template : String} (h : ∀ name ∈ placeholders template,
    ∀ value, params.get? name = some value → value = "<" ++ name ++ ">") :
    substitute template params = template := by
  have hfill : ∀ x ∈ segments template.toList, x.fill params = x.toText := by
    intro x hx
    cases x with
    | literal => rfl
    | placeholder name =>
      have hmem : name ∈ placeholders template := List.mem_filterMap.mpr ⟨_, hx, rfl⟩
      cases hv : params.get? name with
      | none => simp [Segment.fill, hv]
      | some value => simp [Segment.fill, hv, h name hmem value hv, Segment.toText]
  rw [substitute, List.flatMap_congr hfill, flatMap_toText_segments, String.ofList_toList]

namespace Cursor

variable {cursor next : Cursor}

/-- The states of a cursor that goes through a template. -/
inductive Visits (template : List Char) : Cursor → Prop
  | new : Visits template (.new template)
  | advance {cursor next : Cursor} {text after : List Char} (h : Visits template cursor)
      (hs : Text.splitFirst? ['<'] cursor.rest = some (text, after))
      (ha : cursor.advance text after = some next) : Visits template next

/-- The cursor has passed `before`, in which no placeholder begins. -/
structure Tracks (template before : List Char) (cursor : Cursor) : Prop where
  start : cursor.start = before ++ cursor.rest
  passed : cursor.passed = Text.byteSize before
  literal : segments cursor.start = before.foldr consLiteral (segments cursor.rest)
  cut : segments template = cursor.cut ++ segments cursor.start

theorem tracks_new (template : List Char) : (new template).Tracks template [] :=
  ⟨rfl, Text.byteSize_nil.symm, rfl, rfl⟩

/-- The bytes up to the next bracket are the text up to there. -/
theorem Tracks.splitAt?_eq {after : List Char} (h : cursor.Tracks template before)
    (hrest : cursor.rest = text ++ '<' :: after) :
    Text.splitAt? (cursor.passed + Text.byteSize text) cursor.start =
      some (before ++ text, '<' :: after) := by
  rw [Text.splitAt?_eq_some_iff, h.start, hrest, h.passed, Text.byteSize_append,
    List.append_assoc]
  exact ⟨rfl, rfl⟩

theorem Tracks.advance {after : List Char} (h : cursor.Tracks template before)
    (hs : Text.splitFirst? ['<'] cursor.rest = some (text, after)) :
    ∃ next before', cursor.advance text after = some next ∧ next.Tracks template before' := by
  obtain ⟨hrest, hfree⟩ := Text.splitFirst?_singleton_eq_some.mp hs
  have hsegments : segments cursor.start =
      (before ++ text).foldr consLiteral (segments ('<' :: after)) := by
    rw [h.literal, hrest, segments_append_of_not_mem hfree, List.foldr_append]
  have hsplit := h.splitAt?_eq hrest
  unfold Cursor.advance
  split
  · next name rest hsome =>
    obtain ⟨rfl, hname⟩ := name?_eq_some_iff.mp hsome
    simp only [hsplit]
    refine ⟨_, [], rfl, rfl, Text.byteSize_nil.symm, rfl, ?_⟩
    rw [h.cut, hsegments, segments_placeholder hname, foldr_consLiteral _ (by simp)]
    simp
  · next hnone =>
    have hclosed : ¬ Opens ('<' :: after) := by
      rintro ⟨name, rest, hname, he⟩
      cases (name?_eq_some_iff.mpr ⟨(List.cons.inj he).2, hname⟩).symm.trans hnone
    refine ⟨_, before ++ text ++ ['<'], rfl, ?_, ?_, ?_, h.cut⟩
    · simp [h.start, hrest]
    · simp [h.passed, Text.byteSize_cons]
      rfl
    · simp [hsegments, segments_cons hclosed]

theorem Visits.tracks (h : Visits template cursor) : ∃ before, cursor.Tracks template before := by
  induction h with
  | new => exact ⟨[], tracks_new template⟩
  | advance _ hs ha ih =>
    obtain ⟨before, ih⟩ := ih
    obtain ⟨next, before', hnext, h⟩ := ih.advance hs
    cases hnext.symm.trans ha
    exact ⟨before', h⟩

/-- The cursor finds the segments that are left. -/
theorem Tracks.run_eq (h : cursor.Tracks template before) :
    cursor.run = some (segments template) := by
  fun_induction run cursor generalizing before with
  | case1 cursor hs =>
    have hfree := Text.splitFirst?_singleton_eq_none.mp hs
    have hrest : segments cursor.rest = cursor.rest.foldr consLiteral [] := by
      have hall := segments_append_of_not_mem hfree []
      rwa [List.append_nil, show segments [] = [] by simp [segments]] at hall
    rw [h.cut, h.literal, hrest, ← List.foldr_append, ← h.start, foldr_consLiteral _ (by simp),
      List.append_nil]
  | case2 cursor text after hs ha =>
    obtain ⟨next, before', hnext, -⟩ := h.advance hs
    cases hnext.symm.trans ha
  | case3 cursor text after hs next ha ih =>
    obtain ⟨next', before', hnext, h'⟩ := h.advance hs
    cases hnext.symm.trans ha
    exact ih h'

end Cursor

/-- Segments are a lossless and canonical form of a template: written one after another they are
the template, and no other canonical segments are. The cursor never fails to cut them off, since at
each of its states the bytes that it has passed, with those up to the next bracket, are a part of
the text it cuts. Hence a template stays the same when each placeholder has no value or itself for
one. -/
theorem segmentation_canonical (template : String) :
    (segments template.toList).flatMap Segment.toText = template.toList ∧
    Canonical (segments template.toList) ∧
    (∀ others, Canonical others → others.flatMap Segment.toText = template.toList →
      others = segments template.toList) ∧
    cut? template.toList = some (segments template.toList) ∧
    (∀ cursor, Cursor.Visits template.toList cursor → ∃ before,
      cursor.start = before ++ cursor.rest ∧ cursor.passed = Text.byteSize before ∧
      ∀ text after, Text.splitFirst? ['<'] cursor.rest = some (text, after) →
        Text.splitAt? (cursor.passed + Text.byteSize text) cursor.start =
          some (before ++ text, '<' :: after)) ∧
    substitute template [] = template ∧
    ∀ params : Pairs, (∀ name ∈ placeholders template,
      params.get? name = some ("<" ++ name ++ ">")) → substitute template params = template := by
  refine ⟨flatMap_toText_segments _, canonical_segments _, fun others hc he => ?_,
    (Cursor.tracks_new template.toList).run_eq, fun cursor hvisits => ?_, ?_, fun params hp => ?_⟩
  · exact (segments_eq_iff.mpr ⟨hc, he⟩).symm
  · obtain ⟨before, h⟩ := hvisits.tracks
    refine ⟨before, h.start, h.passed, fun text after hs => h.splitAt?_eq ?_⟩
    exact (Text.splitFirst?_singleton_eq_some.mp hs).1
  · exact substitute_eq_self fun _ _ _ hv => by cases hv
  · exact substitute_eq_self fun name hm value hv => Option.some.inj (hv.symm.trans (hp name hm))

/-- A character of two bytes, and brackets of which only those around `b` make a placeholder. -/
theorem segmentation_canonical_brackets :
    let template := "é <<b>> <c"
    cut? template.toList =
        some [.literal "é <".toList, .placeholder "b", .literal "> <c".toList] ∧
      (∃ cursor, Cursor.Visits template.toList cursor ∧ cursor.passed = 4 ∧
        Text.splitAt? cursor.passed template.toList = some ("é <".toList, "<b>> <c".toList)) ∧
      substitute template [("b", "<b>")] = template := by
  intro template
  have hss : segments template.toList =
      [.literal "é <".toList, .placeholder "b", .literal "> <c".toList] := by decide +kernel
  obtain ⟨-, -, -, hcut, hvisits, -, hsubstitute⟩ := segmentation_canonical template
  refine ⟨hss ▸ hcut, ?_, hsubstitute _ ?_⟩
  · let cursor : Cursor := { Cursor.new template.toList with passed := 4, rest := "<b>> <c".toList }
    have hbracket : Text.splitFirst? ['<'] (Cursor.new template.toList).rest =
        some ("é ".toList, "<b>> <c".toList) := by decide +kernel
    have hcursor : Cursor.Visits template.toList cursor := .advance .new hbracket rfl
    obtain ⟨before, hstart, hpassed, hsplit⟩ := hvisits cursor hcursor
    refine ⟨cursor, hcursor, rfl, ?_⟩
    have hbefore : before = "é <".toList := by
      have hparts : cursor.start = "é <".toList ++ cursor.rest := by decide +kernel
      exact List.append_cancel_right (hstart.symm.trans hparts)
    have hhere := hsplit [] "b>> <c".toList (by decide +kernel)
    rwa [Text.byteSize_nil, Nat.add_zero, List.append_nil, hbefore] at hhere
  · have hnames : placeholders template = ["b"] := by decide +kernel
    rw [hnames]
    simp [Pairs.get?]

end Gherkin.Template
