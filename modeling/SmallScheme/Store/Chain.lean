import SmallScheme.Store

/-!
# Following lists

A value that is a pair starts a chain: from pair to pair through the second
components. A chain that passes a pair twice goes round for ever, and one that
comes to a place where there is no pair ends there; so a chain with an end has
at most one link more than there are pairs. This bounds the functions that look
for the end of a chain. One that looks for a certain link (`Store.walk`) is
bounded by its number.

Whether a chain is a list is asked also of one that goes round, and is answered
without keeping the pairs passed: it is followed at two paces at once
(`Store.chase`). Where it goes round, the faster follower comes up behind the slower
one and meets it, before that one has taken as many links as there are pairs.
-/

namespace SmallScheme.Store

/-- The elements of the chain at `v` and the tail that ends it, if there are at
    most `n` elements. -/
def elementsUpTo (s : Store) : Nat → Value → Option (List Value × Value)
  | 0, .pair _ => none
  | n + 1, .pair r =>
    (s.elementsUpTo n (s.pair r).cdr).map fun (items, tail) => ((s.pair r).car :: items, tail)
  | _, v => some ([], v)

/-- The elements of the chain at `v` and the tail that ends it; nothing if it
    goes round. -/
def elements? (s : Store) (v : Value) : Option (List Value × Value) :=
  s.elementsUpTo (s.pairs.size + 1) v

/-- What comes next on the chain at `v`, unless the chain ends there. -/
def next? (s : Store) : Value → Option Value
  | .pair r => some (s.pair r).cdr
  | _ => none

/-- Does a chain end in the empty list? It is followed for at most `n` rounds, in each
    of which `slow` goes on by one link and `fast` by two. -/
def chase (s : Store) : Nat → Value → Value → Option Bool
  | 0, _, _ => none
  | n + 1, slow, fast =>
    match s.next? fast with
    | none => some (fast == .nil)
    | some fast =>
      match s.next? fast with
      | none => some (fast == .nil)
      | some fast =>
        let slow := (s.next? slow).getD slow
        -- The same pair, so this chain goes round.
        if slow.type = .pair ∧ slow = fast then some false else s.chase n slow fast

/-- Is `v` a proper list? -/
def isList (s : Store) (v : Value) : Bool := (s.chase (s.pairs.size + 1) v v).getD false

/-- What lies `k` links on from `v`; or, as an error, the tail at which the chain
    ends before that. -/
def walk (s : Store) : Nat → Value → Except Value Value
  | 0, v => .ok v
  | k + 1, .pair r => s.walk k (s.pair r).cdr
  | _ + 1, v => .error v

end SmallScheme.Store
