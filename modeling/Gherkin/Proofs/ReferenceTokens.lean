import Gherkin.Proofs.TagText
import Gherkin.Reference

/-! How a text is read for its references. Each dollar sign is one of a pair, or begins a reference, or
stands for itself, and which of these is decided by what follows it. -/
namespace Gherkin.Reference

inductive Token where
  | char (c : Char)
  | reference (r : Reference)
deriving DecidableEq, Repr

def Token.reference? : Token → Option Reference
  | .reference r => some r
  | .char _ => none

/-- The tokens of a text. Two dollar signs stand for one, and a dollar sign that begins no reference
stands for itself. -/
def tokens : List Char → List Token
  | [] => []
  | '$' :: '$' :: s => .char '$' :: tokens s
  | '$' :: s =>
    match _h : read? s with
    | some (r, rest) => .reference r :: tokens rest
    | none => .char '$' :: tokens s
  | c :: s => .char c :: tokens s
termination_by s => s.length
decreasing_by
  · exact Nat.lt_succ_of_lt (Nat.lt_succ_self _)
  · exact Nat.lt_succ_of_lt (length_lt_of_read? _h)
  · exact Nat.lt_succ_self _
  · exact Nat.lt_succ_self _

/-- The references in a text, in order. -/
def among (text : String) : List Reference :=
  (tokens text.toList).filterMap Token.reference?

variable {c : Char} {s t rest name : List Char} {r : Reference} {ts : List Token}

theorem tokens_char (hc : c ≠ '$') (s : List Char) : tokens (c :: s) = .char c :: tokens s := by
  rw [tokens]
  · exact fun _ h => absurd h hc
  · exact hc

theorem tokens_pair (s : List Char) : tokens ('$' :: '$' :: s) = .char '$' :: tokens s :=
  tokens.eq_2 s

theorem tokens_reference (h : read? s = some (r, rest)) :
    tokens ('$' :: s) = .reference r :: tokens rest := by
  rw [tokens]
  · split
    · next heq =>
      cases h.symm.trans heq
      rfl
    · next heq => cases h.symm.trans heq
  · rintro s rfl
    cases h

theorem tokens_single (hs : ∀ rest, s ≠ '$' :: rest) (h : read? s = none) :
    tokens ('$' :: s) = .char '$' :: tokens s := by
  rw [tokens]
  · split
    · next heq => cases h.symm.trans heq
    · rfl
  · exact hs

theorem tokens_append (hs : '$' ∉ s) (t : List Char) :
    tokens (s ++ t) = s.map .char ++ tokens t := by
  induction s with
  | nil => rfl
  | cons c s ih =>
    rw [List.mem_cons, not_or] at hs
    rw [List.cons_append, tokens_char (Ne.symm hs.1), ih hs.2, List.map_cons, List.cons_append]

/-- What may stand between the brackets of a reference. -/
structure Nameable (name : List Char) : Prop where
  nonempty : name ≠ []
  solid : ∀ c ∈ name, Text.isBlank c = false
  noDollar : '$' ∉ name
  noOpening : '<' ∉ name ∧ '\x7b' ∉ name

/-- The text begins with what makes a dollar sign in front of it a reference: a bracket, and a name
that ends at the first bracket that closes it. -/
inductive Begins : List Char → Reference → List Char → Prop
  | bound {name rest : List Char} (hname : Nameable name) (hfirst : '>' ∉ name) :
      Begins ('<' :: (name ++ '>' :: rest)) (.bound (String.ofList name)) rest
  | setting {name rest : List Char} (hname : Nameable name) (hfirst : '\x7d' ∉ name) :
      Begins ('\x7b' :: (name ++ '\x7d' :: rest)) (.setting (String.ofList name)) rest

/-- One pass over a text from left to right, with what each of its characters is read as. -/
inductive Reads : List Char → List Token → Prop
  | nil : Reads [] []
  | char {c : Char} {s : List Char} {ts : List Token} (hc : c ≠ '$') (h : Reads s ts) :
      Reads (c :: s) (.char c :: ts)
  | pair {s : List Char} {ts : List Token} (h : Reads s ts) :
      Reads ('$' :: '$' :: s) (.char '$' :: ts)
  | reference {s rest : List Char} {r : Reference} {ts : List Token} (hs : Begins s r rest)
      (h : Reads rest ts) : Reads ('$' :: s) (.reference r :: ts)
  | single {s : List Char} {ts : List Token} (hpair : ∀ rest, s ≠ '$' :: rest)
      (hs : ∀ r rest, ¬ Begins s r rest) (h : Reads s ts) : Reads ('$' :: s) (.char '$' :: ts)

theorem nameable_iff : Nameable name ↔ isName name = true := by
  simp only [isName, Bool.and_eq_true, Bool.not_eq_true', List.isEmpty_eq_false_iff,
    List.any_eq_false, Bool.or_eq_true, beq_iff_eq, not_or, Bool.not_eq_true]
  constructor
  · rintro ⟨hne, hsolid, hdollar, hangle, hbrace⟩
    refine ⟨hne, fun c hc => ⟨⟨⟨hsolid c hc, ?_⟩, ?_⟩, ?_⟩⟩ <;> rintro rfl <;> contradiction
  · rintro ⟨hne, hfree⟩
    refine ⟨hne, fun c hc => (hfree c hc).1.1.1, fun hc => ?_, fun hc => ?_, fun hc => ?_⟩
    · exact (hfree _ hc).1.1.2 rfl
    · exact (hfree _ hc).1.2 rfl
    · exact (hfree _ hc).2 rfl

theorem name?_eq_some_iff {close : Char} :
    name? close s = some (name, rest) ↔ s = name ++ close :: rest ∧ close ∉ name ∧ Nameable name := by
  rw [nameable_iff]
  constructor
  · intro h
    unfold name? at h
    split at h
    · next hsplit =>
      split at h
      · next hname =>
        cases h
        obtain ⟨he, hclose⟩ := Text.splitFirst?_singleton_eq_some.mp hsplit
        exact ⟨he, hclose, hname⟩
      · cases h
    · cases h
  · rintro ⟨he, hclose, hname⟩
    rw [name?, Text.splitFirst?_singleton_eq_some.mpr ⟨he, hclose⟩]
    simp only [hname, if_true]

theorem read?_eq_some_iff : read? s = some (r, rest) ↔ Begins s r rest := by
  constructor
  · intro h
    unfold read? at h
    split at h
    · obtain ⟨⟨name, _⟩, hname, h⟩ := Option.map_eq_some_iff.mp h
      cases h
      obtain ⟨rfl, hfirst, hname⟩ := name?_eq_some_iff.mp hname
      exact .bound hname hfirst
    · obtain ⟨⟨name, _⟩, hname, h⟩ := Option.map_eq_some_iff.mp h
      cases h
      obtain ⟨rfl, hfirst, hname⟩ := name?_eq_some_iff.mp hname
      exact .setting hname hfirst
    · cases h
  · intro h
    cases h with
    | bound hname hfirst => rw [read?, name?_eq_some_iff.mpr ⟨rfl, hfirst, hname⟩]; rfl
    | setting hname hfirst => rw [read?, name?_eq_some_iff.mpr ⟨rfl, hfirst, hname⟩]; rfl

theorem read?_eq_none_iff : read? s = none ↔ ∀ r rest, ¬ Begins s r rest := by
  rw [Option.eq_none_iff_forall_ne_some]
  simp only [Prod.forall, ne_eq, read?_eq_some_iff]

theorem reads_tokens (s : List Char) : Reads s (tokens s) := by
  fun_induction tokens s with
  | case1 => exact .nil
  | case2 s ih => exact .pair ih
  | case3 s hpair r rest hs ih => exact .reference (read?_eq_some_iff.mp hs) ih
  | case4 s hpair hs ih => exact .single hpair (read?_eq_none_iff.mp hs) ih
  | case5 c s hpair hc ih => exact .char hc ih

/-- A text is read in one way. -/
theorem reads_iff : Reads s ts ↔ ts = tokens s := by
  refine ⟨fun h => ?_, fun h => h ▸ reads_tokens s⟩
  induction h with
  | nil => rw [tokens]
  | char hc _ ih => rw [tokens_char hc, ih]
  | pair _ ih => rw [tokens_pair, ih]
  | reference hs _ ih => rw [tokens_reference (read?_eq_some_iff.mpr hs), ih]
  | single hpair hs _ ih => rw [tokens_single hpair (read?_eq_none_iff.mpr hs), ih]

/-- The last of three dollar signs begins a reference; a bracket that is not closed begins none. -/
example : tokens "$$$<x>$<y".toList =
    [.char '$', .reference (.bound "x"), .char '$', .char '<', .char 'y'] := by
  decide +kernel

end Gherkin.Reference
