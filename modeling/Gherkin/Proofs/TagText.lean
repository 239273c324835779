import Gherkin.Tag
import Gherkin.Proofs.Outcomes
import Gherkin.Proofs.QuotedRules
import Mathlib.Data.List.DropRight
import Mathlib.Data.List.Infix

/-! The texts of tags. A tag that was read is written in one form, and that form is read as the same
tag. -/
namespace Gherkin

namespace Text

variable {c : Char} {s before rest : List Char}

theorem trim_eq_rdropWhile (s : List Char) : trim s = (s.dropWhile isBlank).rdropWhile isBlank :=
  rfl

theorem trim_eq_self (hhead : ∀ c ∈ s.head?, isBlank c = false)
    (hlast : ∀ c ∈ s.getLast?, isBlank c = false) : trim s = s := by
  have hstart : s.dropWhile isBlank = s := by
    rw [List.dropWhile_eq_self_iff]
    intro hs
    simp [hhead _ (List.head?_eq_getElem? ▸ List.getElem?_eq_getElem hs)]
  rw [trim_eq_rdropWhile, hstart, List.rdropWhile_eq_self_iff]
  intro hs
  simp [hlast _ (List.getLast?_eq_some_getLast hs)]

/-- Nothing is trimmed between characters that are not blank. -/
theorem trim_cons_append (hc : isBlank c = false) (hne : rest ≠ [])
    (hlast : ∀ d ∈ rest.getLast?, isBlank d = false) :
    trim (c :: (s ++ rest)) = c :: (s ++ rest) := by
  refine trim_eq_self (by rintro _ ⟨⟩; exact hc) fun d hd => hlast d ?_
  rwa [← List.cons_append, List.getLast?_append_of_ne_nil _ hne] at hd

theorem trim_cons_concat {d : Char} (hc : isBlank c = false) (hd : isBlank d = false) :
    trim (c :: (s ++ [d])) = c :: (s ++ [d]) := by
  refine trim_cons_append hc (List.cons_ne_nil _ _) ?_
  rintro _ ⟨⟩
  exact hd

theorem isBlank_head?_trim (h : c ∈ (trim s).head?) : isBlank c = false := by
  rw [trim_eq_rdropWhile] at h
  obtain ⟨tail, htail⟩ := List.rdropWhile_prefix isBlank (s.dropWhile isBlank)
  have hnot := List.head?_dropWhile_not isBlank s
  rwa [← htail, List.head?_append, Option.mem_def.mp h] at hnot

theorem isBlank_getLast?_trim (h : c ∈ (trim s).getLast?) : isBlank c = false := by
  obtain ⟨hne, rfl⟩ := List.mem_getLast?_eq_getLast h
  exact Bool.eq_false_iff.mpr (List.rdropWhile_last_not isBlank _ hne)

theorem trim_trim (s : List Char) : trim (trim s) = trim s :=
  trim_eq_self (fun _ => isBlank_head?_trim) fun _ => isBlank_getLast?_trim

theorem splitFirst?_singleton_eq_some :
    splitFirst? [c] s = some (before, rest) ↔ s = before ++ c :: rest ∧ c ∉ before := by
  rw [splitFirst?_eq_some_iff, List.append_assoc, List.singleton_append, and_congr_right_iff]
  rintro -
  constructor
  · intro h hc
    obtain ⟨u, w, rfl⟩ := List.append_of_mem hc
    have hle := h u (w ++ [c]) (by simp)
    rw [List.length_append, List.length_cons] at hle
    omega
  · exact endsAtFirst_concat List.not_mem_nil

theorem splitFirst?_singleton_eq_none : splitFirst? [c] s = none ↔ c ∉ s := by
  rw [splitFirst?_eq_none_iff, List.singleton_infix_iff]

theorem foldlM_digit? (hs : ∀ c ∈ s, c.isDigit = true) (n : Nat) :
    s.foldlM (fun n c => (digit? c).map (10 * n + ·)) n = some (Nat.ofDigitChars 10 s n) := by
  induction s generalizing n with
  | nil => rfl
  | cons c s ih =>
    obtain ⟨hc, hs⟩ := List.forall_mem_cons.mp hs
    rw [List.foldlM_cons, digit?, if_pos hc, Nat.ofDigitChars_cons]
    exact ih hs _

theorem isDigit_of_mem_toDigits {n : Nat} (h : c ∈ Nat.toDigits 10 n) : c.isDigit = true :=
  Nat.isDigit_of_mem_toDigits (by decide) (by decide) h

theorem isBlank_of_isDigit (h : c.isDigit = true) : isBlank c = false := by
  simp only [Char.isDigit, Bool.and_eq_true, decide_eq_true_eq, UInt32.le_iff_toNat_le] at h
  have hlow : 48 ≤ c.toNat := h.1
  have hhigh : c.toNat ≤ 57 := h.2
  simp [isBlank]
  omega

theorem trim_toDigits (n : Nat) : trim (Nat.toDigits 10 n) = Nat.toDigits 10 n :=
  trim_eq_self (fun _ h => isBlank_of_isDigit (isDigit_of_mem_toDigits (List.mem_of_mem_head? h)))
    fun _ h => isBlank_of_isDigit (isDigit_of_mem_toDigits (List.mem_of_mem_getLast? h))

theorem decimal?_toDigits (n : Nat) : decimal? (Nat.toDigits 10 n) = some n := by
  cases h : Nat.toDigits 10 n with
  | nil => exact absurd h Nat.toDigits_ne_nil
  | cons c cs =>
    rw [decimal?, ← h, foldlM_digit? fun _ => isDigit_of_mem_toDigits, Nat.ofDigitChars_ten_toDigits]
    exact List.cons_ne_nil c cs

theorem unsigned?_toDigits (n : UInt64) : unsigned? (Nat.toDigits 10 n.toNat) = some n := by
  have hplus : '+' ∉ Nat.toDigits 10 n.toNat := fun h =>
    absurd (isDigit_of_mem_toDigits h) (by decide)
  unfold unsigned?
  split
  · next rest h => exact absurd (h ▸ List.mem_cons_self) hplus
  · simp only [decimal?_toDigits, Option.bind_some, n.toNat_lt, if_true, UInt64.ofNat_toNat,
      UInt64.size]

end Text

namespace Tag

variable {t : Tag} {p file : Path} {n : UInt64} {word : List Char} {args : Option (List Char)}

/-- A path that can stand between quotes. -/
def Quotable (p : Path) : Prop :=
  p ≠ "" ∧ '"' ∉ p.toList

/-- The names that have a meaning, each with arguments of its own. -/
def known : List String := ["Import", "Examples", "Meta", "Data", "StepDef", "Ignore"]

/-- A single word, in front of the parentheses if there are any. -/
structure IsWord (name : List Char) : Prop where
  nonempty : name ≠ []
  solid : ∀ c ∈ name, Text.isBlank c = false
  unopened : '(' ∉ name

/-- No blanks are left at either end. -/
def Trimmed (args : Option (List Char)) : Prop :=
  ∀ a ∈ args, Text.trim a = a

/-- The tags that texts stand for. -/
def Proper : Tag → Prop
  | imports p | examples p | definedIn p => Quotable p
  | data file _ => Quotable file
  | stepDef | ignore => True
  | custom name value => IsWord name.toList ∧ name ∉ known ∧ Trimmed (value.map String.toList)

def name : Tag → String
  | imports _ => "Import"
  | examples _ => "Examples"
  | data _ _ => "Data"
  | stepDef => "StepDef"
  | definedIn _ => "Meta"
  | ignore => "Ignore"
  | custom name _ => name

/-- What is written between the parentheses. -/
def arguments? : Tag → Option (List Char)
  | imports p | examples p | definedIn p => some ('"' :: (p.toList ++ ['"']))
  | data file n =>
    some ("file=\"".toList ++
      (file.toList ++ '"' :: (", record=".toList ++ Nat.toDigits 10 n.toNat)))
  | stepDef | ignore => none
  | custom _ value => value.map String.toList

/-- The arguments with their parentheses. -/
def enclosed : Option (List Char) → List Char
  | none => []
  | some args => '(' :: args ++ [')']

/-- What follows the optional sign of a tag, without blanks around it. -/
def body (text : String) : List Char :=
  (Text.afterStart? ['@'] (Text.trim text.toList)).getD (Text.trim text.toList)

theorem toList_render (t : Tag) :
    t.render.toList = '@' :: (t.name.toList ++ enclosed t.arguments?) := by
  cases t with
  | custom name value => cases value <;> simp [render, Tag.name, arguments?, enclosed]
  | _ => simp [render, Tag.name, arguments?, enclosed]

theorem quotedPath?_eq_some_iff :
    quotedPath? args = some p ↔ args = some ('"' :: (p.toList ++ ['"'])) ∧ Quotable p := by
  simp only [quotedPath?, bind, Option.bind_eq_some_iff, Text.afterStart?_eq_some_iff,
    Text.beforeEnd?_eq_some_iff, Option.ite_none_left_eq_some, Bool.or_eq_true, not_or,
    Option.some.injEq]
  constructor
  · rintro ⟨_, rfl, _, rfl, inner, rfl, ⟨hne, hquote⟩, rfl⟩
    exact ⟨by simp, by simpa using hne, by simpa using hquote⟩
  · rintro ⟨rfl, hne, hquote⟩
    exact ⟨_, rfl, _, rfl, p.toList, rfl, ⟨by simpa using hne, by simpa using hquote⟩, by simp⟩

theorem quotable_of_fileAndRecord? (h : fileAndRecord? args = some (file, n)) : Quotable file := by
  simp only [fileAndRecord?, bind, Option.bind_eq_some_iff, Option.ite_none_left_eq_some,
    Option.some.injEq, Prod.mk.injEq] at h
  obtain ⟨_, -, _, -, _, -, _, -, ⟨before, rest⟩, hfile, _, -, _, -, _, -, _, -, hne, rfl, -⟩ := h
  obtain ⟨-, hquote⟩ := Text.splitFirst?_singleton_eq_some.mp hfile
  exact ⟨by simpa using hne, by simpa using hquote⟩

theorem fileAndRecord?_arguments? (h : Quotable file) (n : UInt64) :
    fileAndRecord? (data file n).arguments? = some (file, n) := by
  have hfile : Text.splitFirst? ['"']
      (file.toList ++ '"' :: (", record=".toList ++ Nat.toDigits 10 n.toNat)) =
      some (file.toList, ", record=".toList ++ Nat.toDigits 10 n.toNat) :=
    Text.splitFirst?_singleton_eq_some.mpr ⟨rfl, h.2⟩
  have hnumber : Text.unsigned? (Text.trim (Nat.toDigits 10 n.toNat)) = some n := by
    rw [Text.trim_toDigits, Text.unsigned?_toDigits]
  have hempty : ¬ file.toList.isEmpty = true := by simpa using h.1
  simp only [fileAndRecord?, bind, Option.bind_eq_some_iff, Option.ite_none_left_eq_some,
    Option.some.injEq, Prod.mk.injEq]
  exact ⟨_, rfl, _, rfl, _, rfl, _, rfl, _, hfile, _, rfl, _, rfl, _, rfl, n, hnumber, hempty,
    String.ofList_toList, rfl⟩

theorem elim_error_eq_ok {ε α β : Type} {o : Option α} {e : ε} {f : α → Except ε β} {b : β} :
    o.elim (.error e) f = .ok b ↔ ∃ a, o = some a ∧ f a = .ok b := by
  cases o <;> simp

/-- Arguments that belong to a name, or to a name without a meaning, make a tag. -/
theorem ofParts_of_proper (h : t.Proper) : ofParts t.name t.arguments? = .ok t := by
  cases t with
  | imports p | examples p | definedIn p =>
    exact elim_error_eq_ok.mpr ⟨p, quotedPath?_eq_some_iff.mpr ⟨rfl, h⟩, rfl⟩
  | data file n => exact elim_error_eq_ok.mpr ⟨_, fileAndRecord?_arguments? h n, rfl⟩
  | stepDef | ignore => rfl
  | custom name value =>
    obtain ⟨-, hname, -⟩ := h
    have hvalue : (value.map String.toList).map String.ofList = value := by
      cases value <;> simp
    simp only [known, List.mem_cons, List.not_mem_nil, or_false, not_or] at hname
    simp only [ofParts, Tag.name, arguments?, hvalue]
    split <;> simp_all

theorem proper_of_ofParts (hword : IsWord word) (hargs : Trimmed args)
    (h : ofParts (String.ofList word) args = .ok t) : t.Proper ∧ t.name = String.ofList word := by
  unfold ofParts at h
  split at h
  · next hname =>
    obtain ⟨p, hp, ⟨⟩⟩ := elim_error_eq_ok.mp h
    exact ⟨(quotedPath?_eq_some_iff.mp hp).2, hname.symm⟩
  · next hname =>
    obtain ⟨p, hp, ⟨⟩⟩ := elim_error_eq_ok.mp h
    exact ⟨(quotedPath?_eq_some_iff.mp hp).2, hname.symm⟩
  · next hname =>
    obtain ⟨p, hp, ⟨⟩⟩ := elim_error_eq_ok.mp h
    exact ⟨(quotedPath?_eq_some_iff.mp hp).2, hname.symm⟩
  · next hname =>
    obtain ⟨⟨file, n⟩, hfile, ⟨⟩⟩ := elim_error_eq_ok.mp h
    exact ⟨quotable_of_fileAndRecord? hfile, hname.symm⟩
  · next hname =>
    split at h <;> cases h
    exact ⟨trivial, hname.symm⟩
  · next hname =>
    split at h <;> cases h
    exact ⟨trivial, hname.symm⟩
  · cases h
    refine ⟨⟨by rwa [String.toList_ofList], ?_, ?_⟩, rfl⟩
    · simp_all [known]
    · simpa [Trimmed] using hargs

/-- A tag other than a custom one has a name that is known. -/
theorem name_mem_known_or (t : Tag) : t.name ∈ known ∨ ∃ value, t = custom t.name value := by
  cases t with
  | custom name value => exact Or.inr ⟨value, rfl⟩
  | _ => exact Or.inl (by simp [Tag.name, known])

theorem isWord_name (h : t.Proper) : IsWord t.name.toList := by
  have hknown : known.all fun name =>
      !name.toList.isEmpty && name.toList.all (!Text.isBlank ·) && !name.toList.contains '(' := by
    decide
  rcases t.name_mem_known_or with hname | ⟨value, ht⟩
  · have hword := List.all_eq_true.mp hknown _ hname
    simp only [Bool.and_eq_true, List.all_eq_true, Bool.not_eq_true'] at hword
    obtain ⟨⟨hne, hsolid⟩, hunopened⟩ := hword
    exact ⟨by simpa using hne, hsolid, by simpa using hunopened⟩
  · rw [ht] at h
    exact h.1

theorem trimmed_arguments? (h : t.Proper) : Trimmed t.arguments? := by
  cases t with
  | imports p | examples p | definedIn p =>
    rintro _ ⟨⟩
    exact Text.trim_cons_concat (by decide) (by decide)
  | data file n =>
    rintro _ ⟨⟩
    have hdigits : ∀ c ∈ (Nat.toDigits 10 n.toNat).getLast?, Text.isBlank c = false := fun c hc =>
      Text.isBlank_of_isDigit (Text.isDigit_of_mem_toDigits (List.mem_of_mem_getLast? hc))
    have htrim := Text.trim_cons_append (c := 'f') (by decide) Nat.toDigits_ne_nil hdigits
      (s := "ile=\"".toList ++ (file.toList ++ '"' :: ", record=".toList))
    simpa using htrim
  | stepDef | ignore => rintro _ ⟨⟩
  | custom name value => exact h.2.2

theorem splitArguments_enclosed (hword : IsWord word) (hargs : Trimmed args) :
    splitArguments (word ++ enclosed args) = .ok (word, args) := by
  cases args with
  | none =>
    rw [enclosed, List.append_nil, splitArguments,
      Text.splitFirst?_singleton_eq_none.mpr hword.unopened]
  | some a =>
    have hsplit : Text.splitFirst? ['('] (word ++ enclosed (some a)) = some (word, a ++ [')']) :=
      Text.splitFirst?_singleton_eq_some.mpr ⟨rfl, hword.unopened⟩
    have hclosed : Text.beforeEnd? [')'] (a ++ [')']) = some a :=
      Text.beforeEnd?_eq_some_iff.mpr rfl
    have hname : Text.trim word = word := Text.trim_eq_self
      (fun c hc => hword.solid c (List.mem_of_mem_head? hc))
      fun c hc => hword.solid c (List.mem_of_mem_getLast? hc)
    simp only [splitArguments, hsplit, hclosed, hname, hargs a rfl]

theorem body_written (hword : IsWord word) (args : Option (List Char)) :
    body (String.ofList ('@' :: (word ++ enclosed args))) = word ++ enclosed args := by
  have htrim : Text.trim ('@' :: (word ++ enclosed args)) = '@' :: (word ++ enclosed args) := by
    cases args with
    | none =>
      rw [enclosed, List.append_nil]
      exact Text.trim_cons_append (s := []) (by decide) hword.nonempty fun c hc =>
        hword.solid c (List.mem_of_mem_getLast? hc)
    | some a =>
      have hend : Text.trim ('@' :: (word ++ '(' :: a ++ [')'])) =
          '@' :: (word ++ '(' :: a ++ [')']) :=
        Text.trim_cons_concat (by decide) (by decide)
      simpa [enclosed] using hend
  rw [body, String.toList_ofList, htrim]
  simp [Text.afterStart?]

theorem parse_eq_ok {text : String} : parse text = .ok t ↔ parseBody (body text) = .ok t := by
  rw [parse, body]
  cases parseBody _ <;> simp [Except.mapError]

theorem parseBody_eq_ok {s : List Char} :
    parseBody s = .ok t ↔ ∃ word args, splitArguments s = .ok (word, args) ∧ word ≠ [] ∧
      (∀ c ∈ word, Text.isBlank c = false) ∧ ofParts (String.ofList word) args = .ok t := by
  rw [parseBody, Outcome.bind_eq_ok, Prod.exists]
  refine exists₂_congr fun word args => and_congr_right fun _ => ?_
  have hcheck : (word.isEmpty || word.any Text.isBlank) = false ↔
      word ≠ [] ∧ ∀ c ∈ word, Text.isBlank c = false := by
    simp
  rw [← and_assoc, ← hcheck]
  dsimp only
  split
  · next hbad => simp [hbad]
  · next hgood => simp [Bool.eq_false_iff.mpr hgood]

theorem isWord_of_splitArguments {s : List Char} (h : splitArguments s = .ok (word, args))
    (hne : word ≠ []) (hsolid : ∀ c ∈ word, Text.isBlank c = false) :
    IsWord word ∧ Trimmed args := by
  unfold splitArguments at h
  split at h
  · next hnone =>
    cases h
    exact ⟨⟨hne, hsolid, Text.splitFirst?_singleton_eq_none.mp hnone⟩, by rintro _ ⟨⟩⟩
  · next before rest hsome =>
    split at h
    · cases h
    · cases h
      have hunopened := (Text.splitFirst?_singleton_eq_some.mp hsome).2
      refine ⟨⟨hne, hsolid, fun hm => hunopened (Text.mem_of_mem_trim hm)⟩, ?_⟩
      rintro _ ⟨⟩
      exact Text.trim_trim _

/-- A tag that a text stands for has the name written in the text. -/
theorem proper_of_parseBody {s : List Char} (h : parseBody s = .ok t) :
    t.Proper ∧ ∃ args, splitArguments s = .ok (t.name.toList, args) := by
  obtain ⟨word, args, hsplit, hne, hsolid, hparts⟩ := parseBody_eq_ok.mp h
  obtain ⟨hword, hargs⟩ := isWord_of_splitArguments hsplit hne hsolid
  obtain ⟨hproper, hname⟩ := proper_of_ofParts hword hargs hparts
  exact ⟨hproper, args, by rw [hname, String.toList_ofList, hsplit]⟩

theorem proper_of_parse {text : String} (h : parse text = .ok t) : t.Proper :=
  (proper_of_parseBody (parse_eq_ok.mp h)).1

/-- A proper tag is read back from the text that is written for it. -/
theorem parse_render (h : t.Proper) : parse t.render = .ok t := by
  have hword := isWord_name h
  have hargs := trimmed_arguments? h
  have hbody : body t.render = t.name.toList ++ enclosed t.arguments? := by
    rw [← body_written hword t.arguments?, ← toList_render, String.ofList_toList]
  rw [parse_eq_ok, hbody, parseBody_eq_ok]
  refine ⟨_, _, splitArguments_enclosed hword hargs, hword.nonempty, hword.solid, ?_⟩
  rw [String.ofList_toList]
  exact ofParts_of_proper h

/-- What texts stand for is what can be read back. -/
theorem parse_render_iff : parse t.render = .ok t ↔ t.Proper :=
  ⟨proper_of_parse, parse_render⟩

/-- The tag that a text stands for is read back from its written form, which stays the same when it
is read and written again. A name that has a meaning is never that of a custom tag: a text that
begins with such a name is an error unless it stands for the tag so called. -/
theorem tag_text_round_trip (text : String) :
    (∀ t, parse text = .ok t →
      parse t.render = .ok t ∧ (parse t.render).map render = .ok t.render) ∧
    (∀ name value, parse text = .ok (custom name value) → name ∉ known) ∧
    ∀ word args, splitArguments (body text) = .ok (word, args) → String.ofList word ∈ known →
      (∃ e, parse text = .error e) ∨
        ∃ t, parse text = .ok t ∧ t.name = String.ofList word ∧
          ∀ name value, t ≠ custom name value := by
  refine ⟨fun t h => ?_, fun name value h => (proper_of_parse h).2.1,
    fun word args hsplit hknown => ?_⟩
  · have hread := parse_render (proper_of_parse h)
    exact ⟨hread, by rw [hread]; rfl⟩
  · cases h : parse text with
    | error e => exact Or.inl ⟨e, rfl⟩
    | ok t =>
      obtain ⟨_, hname⟩ := (proper_of_parseBody (parse_eq_ok.mp h)).2
      rw [hsplit] at hname
      have hname : t.name = String.ofList word := by
        rw [(Prod.mk.inj (Except.ok.inj hname)).1, String.ofList_toList]
      refine Or.inr ⟨t, rfl, hname, ?_⟩
      rintro name value rfl
      rw [← hname] at hknown
      exact (proper_of_parse h).2.1 hknown

/-- A custom tag with parentheses, quotes and blanks in its text, and a data tag with blanks. -/
theorem tag_text_round_trip_loose :
    parse " @ Owner ( a(b) \"c) ) " = .ok (custom "Owner" (some "a(b) \"c)")) ∧
    parse "@Owner(a(b) \"c))" = .ok (custom "Owner" (some "a(b) \"c)")) ∧
    parse "Data( file = \"a)b.csv\" ,record= +007 )" = .ok (data "a)b.csv" 7) ∧
    parse "@Data(file=\"a)b.csv\", record=7)" = .ok (data "a)b.csv" 7) := by
  have howner : parse " @ Owner ( a(b) \"c) ) " = .ok (custom "Owner" (some "a(b) \"c)")) := by
    rfl
  have hdata : parse "Data( file = \"a)b.csv\" ,record= +007 )" = .ok (data "a)b.csv" 7) := by
    rfl
  exact ⟨howner, ((tag_text_round_trip _).1 _ howner).1, hdata,
    ((tag_text_round_trip _).1 _ hdata).1⟩

end Tag

end Gherkin
