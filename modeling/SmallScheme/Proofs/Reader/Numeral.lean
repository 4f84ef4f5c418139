import SmallScheme.Proofs.Reader.Slices

/-!
# Numerals

A *numeral* is an integer as it is written: a sign, or none, and then digits, as many as
one likes. It stands for what its digits are worth by their places (`placeValue`): each of
them counts for itself, times ten for every digit after it. The lexer, which goes from left
to right, takes what it has so far ten times at each digit, and comes to the same
(`ofDigitChars_eq_placeValue`).

A text that is a numeral is a single lexeme: the integer that the numeral stands for, as
long as there is such a fixnum, and otherwise a fault with the whole text in it. Zeros in
front count for nothing, however many there are. There is one more fixnum below zero than
above, so it may be the sign that decides whether the digits are too large.

A fixnum is printed as a numeral that stands for it (`Fixnum.numeral`), and so is read
again as itself (`numerals_exact`).
-/

namespace SmallScheme

open Text

/-! ## The value of digits -/

/-- What digits in a row are worth: each of them counts for itself, times ten for
    every digit after it. -/
def placeValue : List Char → Nat
  | [] => 0
  | d :: ds => (d.toNat - '0'.toNat) * 10 ^ ds.length + placeValue ds

theorem ofDigitChars_eq_placeValue (ds : List Char) : Nat.ofDigitChars 10 ds 0 = placeValue ds := by
  induction ds with
  | nil => rfl
  | cons d ds ih =>
    rw [Nat.ofDigitChars_cons, Nat.mul_zero, Nat.zero_add, Nat.ofDigitChars_eq_ofDigitChars_zero,
      ih, placeValue, Nat.mul_comm]

theorem placeValue_toDigits (m : Nat) : placeValue (Nat.toDigits 10 m) = m := by
  rw [← ofDigitChars_eq_placeValue, Nat.ofDigitChars_ten_toDigits]

/-! ## Numerals and what they stand for -/

/-- An integer as it is written. -/
structure Numeral where
  /-- The sign, if there is one. -/
  sign : List Char
  /-- The digits, with all the zeros in front of them. -/
  digits : List Char
  /-- There are two signs. -/
  isSign : sign = [] ∨ sign = ['+'] ∨ sign = ['-']
  /-- A sign alone is no numeral. -/
  ne_nil : digits ≠ []
  /-- Digits are decimal ones. -/
  isDigit : ∀ d ∈ digits, d.isDigit

namespace Numeral

/-- The text that the numeral is. -/
def text (x : Numeral) : String := String.ofList (x.sign ++ x.digits)

/-- The integer that the numeral stands for. -/
def value (x : Numeral) : Int :=
  if x.sign = ['-'] then -(placeValue x.digits : Int) else placeValue x.digits

variable (x : Numeral)

theorem toList_text : x.text.toList = x.sign ++ x.digits := String.toList_ofList

theorem value_eq_signed : x.value = signed x.sign x.digits := by
  rw [value, signed, ofDigitChars_eq_placeValue]

/-- A numeral spells the fixnum that it stands for. -/
theorem spells {n : Fixnum} (hn : n.toInt = x.value) :
    Spells (x.sign ++ x.digits) [] (.integer n) :=
  .number x.isSign x.ne_nil x.isDigit (hn.trans x.value_eq_signed) fun _ h => by cases h

/-- If there is none, it spells nothing. -/
theorem misspells (hn : ∀ n : Fixnum, n.toInt ≠ x.value) :
    Misspells (x.sign ++ x.digits) [] (.integerTooLarge x.text) := by
  rw [value_eq_signed] at hn
  exact .number x.isSign x.ne_nil x.isDigit hn fun _ h => by cases h

theorem tokenize_of_eq {n : Fixnum} (hn : n.toInt = x.value) :
    tokenize x.text = .ok [⟨.integer n, 0, utf8Length x.text.toList⟩] := by
  rw [toList_text]
  exact (x.spells hn).tokenize_eq

theorem tokenize_of_ne (hn : ∀ n : Fixnum, n.toInt ≠ x.value) :
    tokenize x.text = .error ⟨.integerTooLarge x.text, 0, utf8Length x.text.toList⟩ := by
  rw [toList_text]
  exact (x.misspells hn).tokenize_eq

end Numeral

/-! ## Printed fixnums -/

namespace Fixnum

variable (n : Fixnum)

/-- The numeral that is printed for a fixnum. -/
def numeral : Numeral where
  sign := if n.toInt < 0 then ['-'] else []
  digits := Nat.toDigits 10 n.toInt.natAbs
  isSign := by split <;> simp
  ne_nil := Nat.toDigits_ne_nil
  isDigit := fun _ hd => Nat.isDigit_of_mem_toDigits (by decide) (by decide) hd

theorem text_numeral : n.numeral.text = n.text := by
  rw [← String.toList_inj, Numeral.toList_text, toList_text]
  rfl

theorem value_numeral : n.numeral.value = n.toInt := by
  have hsign : n.numeral.sign = ['-'] ↔ n.toInt < 0 := by simp [numeral]
  have hdigits : placeValue n.numeral.digits = n.toInt.natAbs := placeValue_toDigits _
  rw [Numeral.value, hdigits]
  by_cases hneg : n.toInt < 0
  · rw [if_pos (hsign.2 hneg)]
    omega
  · rw [if_neg (hsign.not.2 hneg)]
    omega

end Fixnum

/-! ## Reading numerals -/

/-- A numeral is read as the integer that it stands for, exactly, within the limits
    of a fixnum, and refused as a whole beyond them. A printed fixnum is read
    as itself. -/
theorem numerals_exact :
    (∀ x : Numeral, tokenize x.text =
      if h : -2 ^ 63 ≤ x.value ∧ x.value ≤ 2 ^ 63 - 1 then
        .ok [⟨.integer ⟨x.value, by omega⟩, 0, utf8Length x.text.toList⟩]
      else .error ⟨.integerTooLarge x.text, 0, utf8Length x.text.toList⟩) ∧
    ∀ n : Fixnum, tokenize (TokenKind.integer n).text =
      .ok [⟨.integer n, 0, utf8Length (TokenKind.integer n).text.toList⟩] := by
  constructor
  · intro x
    split
    · exact x.tokenize_of_eq rfl
    · rename_i hbeyond
      refine x.tokenize_of_ne fun n hn => hbeyond ?_
      have hrange := n.inRange
      omega
  · intro n
    have htext : (TokenKind.integer n).text = n.numeral.text := n.text_numeral.symm
    rw [htext]
    exact n.numeral.tokenize_of_eq n.value_numeral.symm

/-- The same digits after either sign: with one they write the least fixnum, with the
    other one more than the greatest. -/
theorem numerals_exact_at_limits :
    (∃ n : Fixnum, n.toInt = -2 ^ 63 ∧
      tokenize "-0009223372036854775808" = .ok [⟨.integer n, 0, 23⟩]) ∧
    tokenize "+0009223372036854775808" =
      .error ⟨.integerTooLarge "+0009223372036854775808", 0, 23⟩ := by
  have hleast := numerals_exact.1
    ⟨['-'], "0009223372036854775808".toList, by decide, by decide, by simp⟩
  have hbeyond := numerals_exact.1
    ⟨['+'], "0009223372036854775808".toList, by decide, by decide, by simp⟩
  rw [dif_pos (by decide)] at hleast
  rw [dif_neg (by decide)] at hbeyond
  exact ⟨⟨⟨-2 ^ 63, by decide⟩, rfl, hleast⟩, hbeyond⟩

end SmallScheme
