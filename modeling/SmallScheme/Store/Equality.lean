import SmallScheme.Store

/-!
# Structural equality

Two pairs are structurally equal if they are the same pair, or their components
are structurally equal; other values if they are the same.

Where the comparison begins, at each first component it goes into, and at each link
that it follows through second components, its first question is whether both sides
are the same pair. So it is one and the same comparison at all these places.

The comparison goes down both values at once. If it comes to the same two pairs
twice on one way down, it does not end. This bounds how far down it can get: each
of the two sides is one of the pairs there are, or a place where there is none.
-/

namespace SmallScheme.Store

/-- Compares two values, provided that every way down ends within `n` steps. -/
def equalUpTo (s : Store) : Nat → Value → Value → Option Bool
  | 0, _, _ => none
  | n + 1, .pair a, .pair b =>
    -- The same pair, even one that goes round.
    if a = b then some true
    else
      match s.equalUpTo n (s.pair a).car (s.pair b).car with
      | some true => s.equalUpTo n (s.pair a).cdr (s.pair b).cdr
      | answer => answer
  | _ + 1, v, w => some (v == w)

/-- Are two values structurally equal? No answer if the comparison has no end. -/
def equal? (s : Store) (v w : Value) : Option Bool :=
  s.equalUpTo ((s.pairs.size + 1) * (s.pairs.size + 1) + 1) v w

end SmallScheme.Store
