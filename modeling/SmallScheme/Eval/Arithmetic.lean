import SmallScheme.Eval.Error

/-!
# Arithmetic and comparison

The primitives on integers. Each first looks whether all its operands are
integers, from left to right, and only then computes; so an operand of the wrong
type is reported even where the answer would not depend on it.

Sums, products, differences and quotients go from left to right, one fixnum
operation at a time, and fail at the first result that does not fit. With one
operand, `-` and `/` take it from zero and divide it into one.
-/

namespace SmallScheme.Primitive

/-- The error of a primitive given a wrong number of operands. -/
def wrongCount (op : Primitive) (expected : Arity) (args : List Value) : EvalError :=
  .arguments (.primitiveCount op expected args.length)

/-- The integer that `v` is. -/
def integer (op : Primitive) : Value → Except EvalError Fixnum
  | .integer n => .ok n
  | v => .error (.typeMismatch op .integer v.type)

/-- The integers that the operands are. -/
def integers (op : Primitive) (args : List Value) : Except EvalError (List Fixnum) :=
  args.mapM (integer op)

/-- The result of an operation, if it fits. -/
def fitting (op : Primitive) : Option Fixnum → Except EvalError Value
  | some n => .ok (.integer n)
  | none => .error (.overflow op)

/-- The sum of all operands. -/
def sum (args : List Value) : Except EvalError Value := do
  let numbers ← integers .add args
  fitting .add (numbers.foldlM Fixnum.add? .zero)

/-- The product of all operands. -/
def product (args : List Value) : Except EvalError Value := do
  let numbers ← integers .mul args
  fitting .mul (numbers.foldlM Fixnum.mul? .one)

/-- The first operand less all others. -/
def difference (args : List Value) : Except EvalError Value := do
  match ← integers .sub args with
  | [] => .error (wrongCount .sub (.atLeast 1) args)
  | [n] => fitting .sub (Fixnum.zero.sub? n)
  | first :: others => fitting .sub (others.foldlM Fixnum.sub? first)

/-- One division. -/
def divide (a b : Fixnum) : Except EvalError Fixnum :=
  if b = .zero then .error .divisionByZero
  else
    match a.div? b with
    | some n => .ok n
    | none => .error (.overflow .div)

/-- The first operand divided by all others. -/
def quotient (args : List Value) : Except EvalError Value := do
  match ← integers .div args with
  | [] => .error (wrongCount .div (.atLeast 1) args)
  | [n] => .integer <$> divide .one n
  | first :: others => .integer <$> others.foldlM divide first

/-- The greatest of all operands. -/
def greatest (args : List Value) : Except EvalError Value := do
  match ← integers .max args with
  | [] => .error (wrongCount .max (.atLeast 1) args)
  | first :: others => .ok (.integer (others.foldl Max.max first))

/-- The least of all operands. -/
def least (args : List Value) : Except EvalError Value := do
  match ← integers .min args with
  | [] => .error (wrongCount .min (.atLeast 1) args)
  | first :: others => .ok (.integer (others.foldl Min.min first))

/-- The absolute value of the only operand. -/
def absolute : List Value → Except EvalError Value
  | [v] => do
    let n ← integer .abs v
    fitting .abs n.abs?
  | args => .error (wrongCount .abs (.exactly 1) args)

/-- Does `rel` hold between each number and the next? -/
def holdsAlong (rel : Fixnum → Fixnum → Bool) : List Fixnum → Bool
  | a :: b :: rest => rel a b && holdsAlong rel (b :: rest)
  | _ => true

/-- Does `rel` hold between each operand and the next? -/
def compare (op : Primitive) (rel : Fixnum → Fixnum → Bool) (args : List Value) :
    Except EvalError Value := do
  let numbers ← integers op args
  .ok (.ofBool (holdsAlong rel numbers))

end SmallScheme.Primitive
