import SmallScheme.Eval.Arithmetic
import SmallScheme.Store.Chain

/-!
# Primitives

What each primitive does with the values of its operands. A wrong number of
operands is reported before a wrong type of any of them.

An index is looked at before the list that it is for. A list is only followed
as far as the index leads, so going round does no harm. Past its end there is
nothing at the index if it ends in the empty list; if it ends in anything else,
it is no list.
-/

namespace SmallScheme.Primitive

open StoreM

/-- A primitive of one operand. -/
def unary (op : Primitive) (f : Value → Eval Value) : List Value → Eval Value
  | [v] => f v
  | args => fail (wrongCount op (.exactly 1) args)

/-- A primitive of two operands. -/
def binary (op : Primitive) (f : Value → Value → Eval Value) : List Value → Eval Value
  | [v, w] => f v w
  | args => fail (wrongCount op (.exactly 2) args)

/-- A primitive that tells from one operand alone whether something is so. -/
def predicate (op : Primitive) (p : Value → Bool) : List Value → Eval Value :=
  unary op fun v => pure (.ofBool (p v))

/-- The place of the pair that `v` is. -/
def pairOf (op : Primitive) : Value → Eval PairRef
  | .pair r => pure r
  | v => fail (.typeMismatch op .pair v.type)

/-- The index that `v` is, both as a natural number and as the operand that it
    came from. -/
def indexOf (op : Primitive) (v : Value) : Eval (Nat × Fixnum) := do
  let n ← ofExcept (integer op v)
  if n.toInt < 0 then fail (.indexOutOfRange op n) else pure (n.toInt.toNat, n)

/-- The error of a list that ends in `tail` before the index is reached. -/
def endedEarly (op : Primitive) (index : Fixnum) : Value → EvalError
  | .nil => .indexOutOfRange op index
  | tail => .typeMismatch op .list tail.type

/-- What is left of `v` from the index on. -/
def dropTo (op : Primitive) (v : Value) (k : Nat) (index : Fixnum) : Eval Value := do
  match ← read fun s => s.walk k v with
  | .ok rest => pure rest
  | .error tail => fail (endedEarly op index tail)

/-- The element of the list `v` at the index `i`. -/
def elementAt (v i : Value) : Eval Value := do
  let (k, index) ← indexOf .listRef i
  match ← dropTo .listRef v k index with
  | .pair r => read fun s => (s.pair r).car
  | tail => fail (endedEarly .listRef index tail)

/-- What is left of the list `v` from the index `i` on. -/
def tailAt (v i : Value) : Eval Value := do
  let (k, index) ← indexOf .listTail i
  dropTo .listTail v k index

/-- The result of a primitive for the given operands. -/
def apply (op : Primitive) (args : List Value) : Eval Value :=
  match op with
  | .add => ofExcept (sum args)
  | .sub => ofExcept (difference args)
  | .mul => ofExcept (product args)
  | .div => ofExcept (quotient args)
  | .max => ofExcept (greatest args)
  | .min => ofExcept (least args)
  | .abs => ofExcept (absolute args)
  | .eq => ofExcept (compare .eq (fun a b => a == b) args)
  | .lt => ofExcept (compare .lt (fun a b => a < b) args)
  | .gt => ofExcept (compare .gt (fun a b => b < a) args)
  | .le => ofExcept (compare .le (fun a b => a ≤ b) args)
  | .ge => ofExcept (compare .ge (fun a b => b ≤ a) args)
  | .isNumber => predicate .isNumber (fun v => v.type == .integer) args
  | .isBoolean => predicate .isBoolean (fun v => v.isBoolean) args
  | .isSymbol => predicate .isSymbol (fun v => v.type == .symbol || v.type == .boolean) args
  | .isPair => predicate .isPair (fun v => v.type == .pair) args
  | .isNull => predicate .isNull (fun v => v == .nil) args
  | .isList => unary .isList (fun v => read fun s => .ofBool (s.isList v)) args
  | .not => predicate .not (fun v => v.isFalse) args
  | .cons => binary .cons (fun v w => create fun s => s.cons v w) args
  | .car => unary .car (fun v => do
      let r ← pairOf .car v
      read fun s => (s.pair r).car) args
  | .cdr => unary .cdr (fun v => do
      let r ← pairOf .cdr v
      read fun s => (s.pair r).cdr) args
  | .list => create fun s => s.list args
  | .listRef => binary .listRef elementAt args
  | .listTail => binary .listTail tailAt args
  | .setCar => binary .setCar (fun v w => do
      let r ← pairOf .setCar v
      modify fun s => s.setCar r w
      pure .nil) args
  | .setCdr => binary .setCdr (fun v w => do
      let r ← pairOf .setCdr v
      modify fun s => s.setCdr r w
      pure .nil) args

end SmallScheme.Primitive
