/-!
# Integers of the language

A *fixnum* is an integer that fits a signed word of 64 bits. Arithmetic on
fixnums never wraps round: every operation is the exact one on `Int`, followed
by the question whether its result still fits (`Fixnum.ofInt?`), and has no
result where it does not.

The bounds are part of the type, so a fixnum once made is in range, whatever
it went through.
-/

namespace SmallScheme

/-- An integer of at most 64 bits, sign included. -/
structure Fixnum where
  /-- The integer itself. -/
  toInt : Int
  /-- The integer fits its word: the bounds are two to the power of 63. -/
  inRange : -0x8000000000000000 ≤ toInt ∧ toInt < 0x8000000000000000
deriving DecidableEq, Repr

namespace Fixnum

/-- The fixnum `z`, if it fits. -/
def ofInt? (z : Int) : Option Fixnum :=
  if h : -0x8000000000000000 ≤ z ∧ z < 0x8000000000000000 then some ⟨z, h⟩ else none

/-- The neutral element of addition. -/
def zero : Fixnum := ⟨0, by decide⟩

/-- The neutral element of multiplication. -/
def one : Fixnum := ⟨1, by decide⟩

instance : Inhabited Fixnum := ⟨zero⟩

instance : LT Fixnum := ⟨fun a b => a.toInt < b.toInt⟩

instance : LE Fixnum := ⟨fun a b => a.toInt ≤ b.toInt⟩

instance (a b : Fixnum) : Decidable (a < b) := inferInstanceAs (Decidable (a.toInt < b.toInt))

instance (a b : Fixnum) : Decidable (a ≤ b) := inferInstanceAs (Decidable (a.toInt ≤ b.toInt))

instance : Max Fixnum := maxOfLe

instance : Min Fixnum := minOfLe

/-- The sum, if it fits. -/
def add? (a b : Fixnum) : Option Fixnum := ofInt? (a.toInt + b.toInt)

/-- The difference, if it fits. -/
def sub? (a b : Fixnum) : Option Fixnum := ofInt? (a.toInt - b.toInt)

/-- The product, if it fits. -/
def mul? (a b : Fixnum) : Option Fixnum := ofInt? (a.toInt * b.toInt)

/-- The quotient by `b`, which is not to be zero, cut off toward zero, if it
    fits. -/
def div? (a b : Fixnum) : Option Fixnum := ofInt? (a.toInt.tdiv b.toInt)

/-- The absolute value, if it fits. -/
def abs? (a : Fixnum) : Option Fixnum := ofInt? a.toInt.natAbs

/-- The decimal form: a minus sign where it is due, and no leading zeros. -/
def text (a : Fixnum) : String := a.toInt.repr

theorem toList_text (a : Fixnum) : a.text.toList =
    (if a.toInt < 0 then ['-'] else []) ++ Nat.toDigits 10 a.toInt.natAbs := by
  rw [text]
  rcases a.toInt with m | m
  · have hpos : ¬Int.ofNat m < 0 := Int.not_lt.2 (Int.natCast_nonneg m)
    rw [if_neg hpos]
    exact Nat.toList_repr
  · rw [if_pos (Int.negSucc_lt_zero m), Int.natAbs_negSucc, ← Nat.toList_repr]
    exact String.toList_append

theorem ofInt?_toInt (a : Fixnum) : ofInt? a.toInt = some a :=
  dif_pos a.inRange

theorem toInt_of_ofInt? {z : Int} {a : Fixnum} (h : ofInt? z = some a) : a.toInt = z := by
  unfold ofInt? at h
  split at h
  · cases h; rfl
  · cases h

theorem toInt_ne_of_ofInt? {z : Int} (h : ofInt? z = none) (a : Fixnum) : a.toInt ≠ z := by
  rintro rfl
  rw [ofInt?_toInt] at h
  cases h

theorem eq_of_toInt_eq {a b : Fixnum} (h : a.toInt = b.toInt) : a = b := by
  rw [← Option.some_inj, ← ofInt?_toInt, ← ofInt?_toInt, h]

end Fixnum

end SmallScheme
