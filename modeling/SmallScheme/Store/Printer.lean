import SmallScheme.Store

/-!
# Printing values

A value is printed in two forms. The *display* of a pair is the inside of a
list: its elements with a space between, and a tail that is not the empty list
after a dot; elements that are pairs have brackets round them. A chain is
printed only up to its first element that is the empty list: this is written
`()` and ends the display. The *rendering*, used for results, puts brackets
round a pair. All other values look the same in both forms.

Text is added to what has been written before. The first element of a list is
written on its own (`Store.writePair`); then the second components are followed
from pair to pair, and an element is written at each (`Store.writeRest`). An
element that is a pair is a list of its own (`Store.writeElement`).

A way down that passes a pair twice has no end, and with it the printed form has
none. Any other way passes each pair once at most, and then perhaps a place where
there is none.
-/

namespace SmallScheme.Store

/-- Writes an element of a list after `out`, where `inside` writes the inside of a
    pair. -/
@[inline] def writeElement (inside : PairRef → String → Option String) (v : Value)
    (out : String) : Option String :=
  match v with
  | .pair r => (inside r (out ++ "(")).map (· ++ ")")
  | v => some (out ++ v.atomText)

mutual

/-- Writes the inside of the pair at `r` after `out`, provided that no way down
    from it passes more than `n` pairs. -/
def writePair (s : Store) : Nat → PairRef → String → Option String
  | 0, _, _ => none
  | n + 1, r, out =>
    -- Whatever comes after an empty list is left out.
    if (s.pair r).car = .nil then some (out ++ "()")
    else do
      let out ← writeElement (s.writePair n) (s.pair r).car out
      s.writeRest n (s.pair r).cdr out

/-- Writes what follows an element of a list after `out`, provided that no way down
    from there passes more than `n` pairs. -/
def writeRest (s : Store) : Nat → Value → String → Option String
  | 0, .pair _, _ => none
  | n + 1, .pair r, out =>
    let out := out ++ " "
    if (s.pair r).car = .nil then some (out ++ "()")
    else do
      let out ← writeElement (s.writePair n) (s.pair r).car out
      s.writeRest n (s.pair r).cdr out
  | _, .nil, out => some out
  | _, tail, out => some (out ++ " . " ++ tail.atomText)

end

/-- The display of a value; nothing if it has no end. -/
def display? (s : Store) : Value → Option String
  | .pair r => s.writePair (s.pairs.size + 1) r ""
  | v => some v.atomText

/-- The rendering of a value; nothing if it has no end. -/
def render? (s : Store) : Value → Option String
  | .pair r => (s.writePair (s.pairs.size + 1) r "(").map (· ++ ")")
  | v => some v.atomText

variable {s : Store} {n : Nat}

/-- A list goes on, after a space, as it would begin. -/
theorem writeRest_pair (r : PairRef) (out : String) :
    s.writeRest n (.pair r) out = s.writePair n r (out ++ " ") := by
  cases n with
  | zero => rfl
  | succ n => rw [writeRest, writePair]

theorem writeRest_nil (out : String) : s.writeRest n .nil out = some out := by
  cases n <;> rfl

/-- Anything that is not a list follows after a dot. -/
theorem writeRest_tail {v : Value} (hnil : v ≠ .nil) (hpair : ∀ r, v ≠ .pair r) (out : String) :
    s.writeRest n v out = some (out ++ " . " ++ v.atomText) := by
  cases v with
  | nil => exact absurd rfl hnil
  | pair r => exact absurd rfl (hpair r)
  | integer | symbol | closure => cases n <;> rfl

end SmallScheme.Store
