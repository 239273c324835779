/-!
The bytes of a text in UTF-8. A text can be cut at a number of bytes only where one of its
characters ends.
-/

namespace Gherkin.Text

/-- How many bytes a text has. -/
def byteSize (s : List Char) : Nat :=
  (String.ofList s).utf8ByteSize

/-- The first `n` bytes of a text and what follows them. There are none if the text is shorter, or
if byte `n` is inside a character. -/
def splitAt? : (n : Nat) → List Char → Option (List Char × List Char)
  | 0, s => some ([], s)
  | _ + 1, [] => none
  | n + 1, c :: s =>
    if n + 1 < c.utf8Size then none
    else (splitAt? (n + 1 - c.utf8Size) s).map fun (before, rest) => (c :: before, rest)

@[simp] theorem byteSize_nil : byteSize [] = 0 := by
  simp [byteSize]

@[simp] theorem byteSize_append (s t : List Char) :
    byteSize (s ++ t) = byteSize s + byteSize t := by
  simp [byteSize]

theorem byteSize_cons (c : Char) (s : List Char) : byteSize (c :: s) = c.utf8Size + byteSize s := by
  rw [← List.singleton_append, byteSize_append, byteSize, ← String.singleton_eq_ofList,
    String.utf8ByteSize_singleton]

/-- A text is cut where a part of it ends, and nowhere else. -/
theorem splitAt?_eq_some_iff {n : Nat} {s before rest : List Char} :
    splitAt? n s = some (before, rest) ↔ s = before ++ rest ∧ n = byteSize before := by
  induction s generalizing n before with
  | nil =>
    cases n with
    | zero => cases before <;> simp [splitAt?, eq_comm]
    | succ n =>
      simp only [splitAt?, reduceCtorEq, List.nil_eq, List.append_eq_nil_iff, false_iff]
      rintro ⟨⟨rfl, rfl⟩, hn⟩
      simp at hn
  | cons c s ih =>
    have hpos := c.utf8Size_pos
    cases n with
    | zero =>
      cases before with
      | nil => simp [splitAt?, eq_comm]
      | cons d before =>
        have hd := d.utf8Size_pos
        simp only [splitAt?, Option.some.injEq, Prod.mk.injEq, List.nil_eq, reduceCtorEq, false_and,
          byteSize_cons, false_iff]
        omega
    | succ n =>
      cases before with
      | nil =>
        simp only [splitAt?, byteSize_nil, Nat.add_one_ne_zero, and_false, iff_false]
        split <;> simp
      | cons d before =>
        simp only [splitAt?, byteSize_cons, List.cons_append, List.cons.injEq]
        split
        · simp only [reduceCtorEq, false_iff]
          rintro ⟨⟨rfl, rfl⟩, hn⟩
          omega
        · rw [Option.map_eq_some_iff]
          constructor
          · rintro ⟨⟨_, _⟩, h, he⟩
            simp only [Prod.mk.injEq, List.cons.injEq] at he
            obtain ⟨⟨rfl, rfl⟩, rfl⟩ := he
            obtain ⟨rfl, hn⟩ := ih.mp h
            exact ⟨⟨rfl, rfl⟩, by omega⟩
          · rintro ⟨⟨rfl, rfl⟩, hn⟩
            exact ⟨(before, rest), ih.mpr ⟨rfl, by omega⟩, rfl⟩

end Gherkin.Text
