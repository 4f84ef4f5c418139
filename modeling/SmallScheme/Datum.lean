import SmallScheme.Datum.Error

/-!
# Data

A *datum* is what a text says before anybody evaluates it: the empty list, an
integer, a symbol, or a pair of data. Lists are chains of pairs, linked through
the second component; a chain that ends in the empty list is a *proper* list,
and one that ends in anything else is written with a dot before its tail.

`Datum.ofItems` makes a list from the items between two brackets. Here the dot
is still an item like the others, a symbol of that name; it may only stand
before the last item, and not first, and then that item becomes the tail.
-/

namespace SmallScheme

/-- An expression as read, not yet stored anywhere. -/
inductive Datum where
  /-- The empty list. -/
  | nil
  /-- An integer. -/
  | integer (n : Fixnum)
  /-- A symbol, by its name. -/
  | symbol (name : String)
  /-- A pair. -/
  | pair (car cdr : Datum)
deriving DecidableEq, Repr, Inhabited

namespace Datum

/-- What a dot is read as. -/
def dot : Datum := symbol "."

/-- The chain of pairs with the elements `items` and the tail `tail`. -/
def chain (items : List Datum) (tail : Datum) : Datum := items.foldr pair tail

/-- The list of the items from position `pos` on, each given with its span.

    The dot is judged by its position among *all* items: it may not be at
    position 0, and exactly one item must follow it. -/
def ofItems (items : List (Datum × Span)) (pos : Nat) : Except ReadError Datum :=
  match (items.drop pos).span fun item => item.1 != dot with
  | (front, []) => .ok (chain (front.map (·.1)) nil)
  | (front, dotItem :: back) =>
    match back with
    | [last] =>
      -- Exactly one item follows; now the dot must not be first.
      if pos + front.length = 0 then .error (.misplacedDot dotItem.2)
      else .ok (chain (front.map (·.1)) last.1)
    | _ => .error (.misplacedDot dotItem.2)

end Datum

end SmallScheme
