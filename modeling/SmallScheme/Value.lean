import SmallScheme.Fixnum

/-!
# Values

A value is what expressions evaluate to, and also what they are made of: code
and data have one representation. Integers, symbols and the empty list are
values in themselves. Pairs and closures are not: they have an identity, which
several values can share, so the value only names the place in the store
(`SmallScheme.Store`) where the pair or the closure is kept. Two values are the
same object if and only if they are equal.

Truth values are the symbols `#t` and `#f`.
-/

namespace SmallScheme

/-- The place of a pair in the store. -/
structure PairRef where
  /-- Its number, in order of creation. -/
  index : Nat
deriving DecidableEq, Repr

/-- The place of a closure in the store. -/
structure ClosureRef where
  /-- Its number, in order of creation. -/
  index : Nat
deriving DecidableEq, Repr

/-- The place of a scope frame in the store. -/
structure FrameRef where
  /-- Its number, in order of creation. -/
  index : Nat
deriving DecidableEq, Repr

/-- A value. -/
inductive Value where
  /-- The empty list. -/
  | nil
  /-- An integer. -/
  | integer (n : Fixnum)
  /-- A symbol, by its name. -/
  | symbol (name : String)
  /-- A pair, by its place. -/
  | pair (ref : PairRef)
  /-- A closure, by its place. -/
  | closure (ref : ClosureRef)
deriving DecidableEq, Repr, Inhabited

/-- The types that the language tells apart. -/
inductive ValueType where
  /-- The empty list. -/
  | nil
  /-- The integers. -/
  | integer
  /-- The symbols `#t` and `#f`. -/
  | boolean
  /-- All other symbols. -/
  | symbol
  /-- The pairs. -/
  | pair
  /-- The closures. -/
  | procedure
deriving DecidableEq, Repr

/-- The name of a type, as messages show it. -/
def ValueType.name : ValueType → String
  | nil => "nil"
  | integer => "integer"
  | boolean => "boolean"
  | symbol => "symbol"
  | pair => "pair"
  | procedure => "procedure"

namespace Value

/-- The truth value `b`. -/
def ofBool (b : Bool) : Value := symbol (if b then "#t" else "#f")

/-- Is it the truth value `#f`? -/
def isFalse (v : Value) : Bool := v == ofBool false

/-- Is it one of the two truth values? -/
def isBoolean (v : Value) : Bool := v == ofBool true || v == ofBool false

/-- The type of a value. -/
def type : Value → ValueType
  | nil => .nil
  | integer _ => .integer
  | symbol name => if (symbol name).isBoolean then .boolean else .symbol
  | pair _ => .pair
  | closure _ => .procedure

/-- Can it be the list of operands or parameters of a form, as far as can be
    seen without following it? -/
def isListLike : Value → Bool
  | nil | pair _ => true
  | integer _ | symbol _ | closure _ => false

/-- The printed form of a value that is not a pair. (The printer writes pairs,
    for which it needs the store; their text here is that of an empty list.) -/
def atomText : Value → String
  | nil | pair _ => "()"
  | integer n => n.text
  | symbol name => name
  | closure _ => "#<closure>"

end Value

end SmallScheme
