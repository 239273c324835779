import Gherkin.Proofs.CanonicalPaths
import Gherkin.Text.Unsigned
import Mathlib.Algebra.Ring.Nat
import Mathlib.Data.Char
import Mathlib.Data.List.Lex

/-! Names that begin with a number, filled up with zeros, and a dash. The number can be read off the
name whatever follows, and numbers that fit their places come in the order of the names. -/
namespace Gherkin

namespace Text

variable {c : Char} {m n width : Nat} {u v : List Char}

theorem isDigit_of_mem_zeroPadded (h : c ∈ zeroPadded width n) : c.isDigit = true := by
  rcases List.mem_append.mp h with h | h
  · rw [List.eq_of_mem_replicate h]
    rfl
  · exact Nat.isDigit_of_mem_toDigits (by decide) (by decide) h

/-- Zeros in front do not change the number. -/
theorem ofDigitChars_zeroPadded (width n : Nat) :
    Nat.ofDigitChars 10 (zeroPadded width n) 0 = n := by
  rw [zeroPadded, Nat.ofDigitChars_append, Nat.ofDigitChars_replicate_zero, Nat.mul_zero,
    Nat.ofDigitChars_ten_toDigits]

theorem zeroPadded_injective (width : Nat) : Function.Injective (zeroPadded width) := by
  intro m n h
  calc m = Nat.ofDigitChars 10 (zeroPadded width m) 0 := (ofDigitChars_zeroPadded width m).symm
    _ = Nat.ofDigitChars 10 (zeroPadded width n) 0 := by rw [h]
    _ = n := ofDigitChars_zeroPadded width n

theorem length_zeroPadded (h : n < 10 ^ width) (hw : 0 < width) :
    (zeroPadded width n).length = width := by
  have hdigits := (Nat.length_toDigits_le_iff (by decide) hw).mpr h
  simp [zeroPadded]
  omega

theorem toNat_of_isDigit (h : c.isDigit = true) :
    '0'.toNat ≤ c.toNat ∧ c.toNat - '0'.toNat < 10 := by
  simp only [Char.isDigit, Bool.and_eq_true, decide_eq_true_eq, UInt32.le_iff_toNat_le] at h
  have hle : '0'.toNat ≤ c.toNat := h.1
  have hge : c.toNat ≤ '9'.toNat := h.2
  have hnine : '9'.toNat - '0'.toNat = 9 := rfl
  omega

theorem ofDigitChars_cons_zero (c : Char) (u : List Char) : Nat.ofDigitChars 10 (c :: u) 0 =
    10 ^ u.length * (c.toNat - '0'.toNat) + Nat.ofDigitChars 10 u 0 := by
  rw [Nat.ofDigitChars_cons, Nat.ofDigitChars_eq_ofDigitChars_zero, Nat.mul_zero, Nat.zero_add]

theorem ofDigitChars_lt (h : ∀ c ∈ u, c.isDigit = true) :
    Nat.ofDigitChars 10 u 0 < 10 ^ u.length := by
  induction u with
  | nil => exact Nat.one_pos
  | cons c u ih =>
    obtain ⟨hc, hu⟩ := List.forall_mem_cons.mp h
    have hhead : 10 ^ u.length * (c.toNat - '0'.toNat) ≤ 10 ^ u.length * 9 :=
      Nat.mul_le_mul_left _ (Nat.le_of_lt_succ (toNat_of_isDigit hc).2)
    have hrest := ih hu
    rw [ofDigitChars_cons_zero, List.length_cons, Nat.pow_succ]
    omega

/-- As many digits are compared like the numbers that they stand for, whatever follows. -/
theorem append_lt_of_ofDigitChars_lt (hu : ∀ c ∈ u, c.isDigit = true)
    (hv : ∀ c ∈ v, c.isDigit = true) (hlength : u.length = v.length)
    (h : Nat.ofDigitChars 10 u 0 < Nat.ofDigitChars 10 v 0) (s t : List Char) :
    u ++ s < v ++ t := by
  induction u generalizing v with
  | nil =>
    cases v with
    | nil => exact absurd h (Nat.lt_irrefl _)
    | cons d v => cases hlength
  | cons c u ih =>
    cases v with
    | nil => cases hlength
    | cons d v =>
      obtain ⟨-, hu'⟩ := List.forall_mem_cons.mp hu
      obtain ⟨hd, hv'⟩ := List.forall_mem_cons.mp hv
      have hrest : u.length = v.length := Nat.succ_inj.mp hlength
      rw [ofDigitChars_cons_zero, ofDigitChars_cons_zero, hrest] at h
      rw [List.cons_append, List.cons_append, List.cons_lt_cons_iff]
      rcases lt_trichotomy c d with hlt | rfl | hgt
      · exact .inl hlt
      · exact .inr ⟨rfl, ih hu' hv' hrest (Nat.lt_of_add_lt_add_left h)⟩
      · -- the greater first digit makes up for all digits behind it
        have hdigits : d.toNat - '0'.toNat + 1 ≤ c.toNat - '0'.toNat := by
          have hlt : d.toNat < c.toNat := hgt
          have hzero := (toNat_of_isDigit hd).1
          omega
        have hhead := Nat.mul_le_mul_left (10 ^ v.length) hdigits
        rw [Nat.mul_succ] at hhead
        have hbound := ofDigitChars_lt hv'
        omega

/-- Numbers that fit their places come in the order of their digits. -/
theorem zeroPadded_append_lt (h : m < n) (hn : n < 10 ^ width) (hw : 0 < width)
    (s t : List Char) : zeroPadded width m ++ s < zeroPadded width n ++ t := by
  refine append_lt_of_ofDigitChars_lt (fun _ => isDigit_of_mem_zeroPadded)
    (fun _ => isDigit_of_mem_zeroPadded) ?_ ?_ s t
  · rw [length_zeroPadded (Nat.lt_trans h hn) hw, length_zeroPadded hn hw]
  · rwa [ofDigitChars_zeroPadded, ofDigitChars_zeroPadded]

end Text

namespace Path

variable {width m n : Nat} {rest rest' : String}

/-- A number, filled up with zeros, and what follows a dash behind it. -/
def numbered (width n : Nat) (rest : String) : String :=
  String.ofList (Text.zeroPadded width n) ++ "-" ++ rest

theorem toList_numbered (width n : Nat) (rest : String) :
    (numbered width n rest).toList = Text.zeroPadded width n ++ '-' :: rest.toList := by
  have hdash : "-".toList = ['-'] := rfl
  rw [numbered, String.toList_append, String.toList_append, String.toList_ofList, hdash,
    List.append_assoc]
  rfl

theorem number_unique (h : numbered width m rest = numbered width n rest') : m = n := by
  have hbefore (k : Nat) (rest : String) :
      (numbered width k rest).toList.takeWhile (·.isDigit) = Text.zeroPadded width k := by
    rw [toList_numbered, List.takeWhile_append_of_pos fun _ => Text.isDigit_of_mem_zeroPadded,
      List.takeWhile_cons_of_neg (by decide), List.append_nil]
  refine Text.zeroPadded_injective width ?_
  rw [← hbefore m rest, h, hbefore]

theorem numbered_lt (h : m < n) (hn : n < 10 ^ width) (hw : 0 < width) (rest rest' : String) :
    numbered width m rest < numbered width n rest' := by
  have hlt : (numbered width m rest).toList < (numbered width n rest').toList := by
    rw [toList_numbered, toList_numbered]
    exact Text.zeroPadded_append_lt h hn hw _ _
  exact hlt

/-- A number makes a name of whatever has no separator. -/
theorem isName_numbered (h : '/' ∉ rest.toList) (width n : Nat) :
    IsName (numbered width n rest) := by
  have hdash : '-' ∈ (numbered width n rest).toList := by simp [toList_numbered]
  have hnot (name : String) (hname : '-' ∉ name.toList) : numbered width n rest ≠ name := by
    rintro rfl
    exact hname hdash
  refine ⟨hnot _ (by decide), hnot _ (by decide), hnot _ (by decide), ?_⟩
  rw [toList_numbered, List.mem_append, List.mem_cons]
  rintro (hdigit | hsame | hrest)
  · exact absurd (Text.isDigit_of_mem_zeroPadded hdigit) (by decide)
  · cases hsame
  · exact h hrest

end Path

end Gherkin
