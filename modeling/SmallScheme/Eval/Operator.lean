/-!
# Operators

An *operator* is a name with a fixed meaning at the head of a form. A *special
form* is given its operands as they stand; a *primitive* is given their values.
No definition takes an operator's meaning away, and outside the head of a form
its name is a variable like any other.

Operators are listed for those who look for a name (`Operator.all`), and found by
their name when a form is evaluated (`Operator.named?`); the names listed are those
that are found (`Operator.mem_names_iff`).
-/

namespace SmallScheme

/-- The operators that decide themselves what to evaluate. -/
inductive SpecialForm where
  /-- The operand itself, not its value. -/
  | quote
  /-- Binds a name in the active frame. -/
  | define
  /-- Changes a binding of the active frame. -/
  | assign
  /-- One of two expressions, by the truth of a first one. -/
  | conditional
  /-- A closure. -/
  | lambda
  /-- The first false operand, or else the last one. -/
  | conjunction
  /-- The first operand that is not false, or else the last one. -/
  | disjunction
deriving DecidableEq, Repr

/-- The name of a special form. -/
def SpecialForm.name : SpecialForm → String
  | quote => "quote"
  | define => "define"
  | assign => "set!"
  | conditional => "if"
  | lambda => "lambda"
  | conjunction => "and"
  | disjunction => "or"

/-- The operators on values. -/
inductive Primitive where
  /-- The sum of integers. -/
  | add
  /-- The negation of an integer, or the difference of several. -/
  | sub
  /-- The product of integers. -/
  | mul
  /-- The inverse of an integer, or the quotient of several. -/
  | div
  /-- The greatest of some integers. -/
  | max
  /-- The least of some integers. -/
  | min
  /-- The absolute value of an integer. -/
  | abs
  /-- Are integers all equal? -/
  | eq
  /-- Do integers increase? -/
  | lt
  /-- Do integers decrease? -/
  | gt
  /-- Do integers nowhere decrease? -/
  | le
  /-- Do integers nowhere increase? -/
  | ge
  /-- Is it an integer? -/
  | isNumber
  /-- Is it a truth value? -/
  | isBoolean
  /-- Is it a symbol, a truth value included? -/
  | isSymbol
  /-- Is it a pair? -/
  | isPair
  /-- Is it the empty list? -/
  | isNull
  /-- Is it a proper list? -/
  | isList
  /-- Is it false? -/
  | not
  /-- A new pair. -/
  | cons
  /-- The first component of a pair. -/
  | car
  /-- The second component of a pair. -/
  | cdr
  /-- A new list. -/
  | list
  /-- The element of a list at an index. -/
  | listRef
  /-- What is left of a list from an index on. -/
  | listTail
  /-- Replaces the first component of a pair. -/
  | setCar
  /-- Replaces the second component of a pair. -/
  | setCdr
deriving DecidableEq, Repr

/-- The name of a primitive. -/
def Primitive.name : Primitive → String
  | add => "+"
  | sub => "-"
  | mul => "*"
  | div => "/"
  | max => "max"
  | min => "min"
  | abs => "abs"
  | eq => "="
  | lt => "<"
  | gt => ">"
  | le => "<="
  | ge => ">="
  | isNumber => "number?"
  | isBoolean => "boolean?"
  | isSymbol => "symbol?"
  | isPair => "pair?"
  | isNull => "null?"
  | isList => "list?"
  | not => "not"
  | cons => "cons"
  | car => "car"
  | cdr => "cdr"
  | list => "list"
  | listRef => "list-ref"
  | listTail => "list-tail"
  | setCar => "set-car!"
  | setCdr => "set-cdr!"

/-- An operator of either sort. -/
inductive Operator where
  /-- One that is given its operands as they stand. -/
  | special (form : SpecialForm)
  /-- One that is given the values of its operands. -/
  | primitive (op : Primitive)
deriving DecidableEq, Repr

namespace Operator

/-- The name of an operator. -/
def name : Operator → String
  | special form => form.name
  | primitive op => op.name

/-- All operators, in the order in which they are listed. -/
def all : List Operator :=
  [.special .quote, .special .define, .special .assign, .special .conditional, .special .lambda,
    .special .conjunction, .special .disjunction, .primitive .add, .primitive .sub,
    .primitive .mul, .primitive .div, .primitive .max, .primitive .min, .primitive .abs,
    .primitive .eq, .primitive .lt, .primitive .gt, .primitive .le, .primitive .ge,
    .primitive .isNumber, .primitive .isBoolean, .primitive .isSymbol, .primitive .isPair,
    .primitive .isNull, .primitive .isList, .primitive .not, .primitive .cons, .primitive .car,
    .primitive .cdr, .primitive .list, .primitive .listRef, .primitive .listTail,
    .primitive .setCar, .primitive .setCdr]

/-- The operator of that name. -/
def named? : String → Option Operator
  | "quote" => some (.special .quote)
  | "define" => some (.special .define)
  | "set!" => some (.special .assign)
  | "if" => some (.special .conditional)
  | "lambda" => some (.special .lambda)
  | "and" => some (.special .conjunction)
  | "or" => some (.special .disjunction)
  | "+" => some (.primitive .add)
  | "-" => some (.primitive .sub)
  | "*" => some (.primitive .mul)
  | "/" => some (.primitive .div)
  | "max" => some (.primitive .max)
  | "min" => some (.primitive .min)
  | "abs" => some (.primitive .abs)
  | "=" => some (.primitive .eq)
  | "<" => some (.primitive .lt)
  | ">" => some (.primitive .gt)
  | "<=" => some (.primitive .le)
  | ">=" => some (.primitive .ge)
  | "number?" => some (.primitive .isNumber)
  | "boolean?" => some (.primitive .isBoolean)
  | "symbol?" => some (.primitive .isSymbol)
  | "pair?" => some (.primitive .isPair)
  | "null?" => some (.primitive .isNull)
  | "list?" => some (.primitive .isList)
  | "not" => some (.primitive .not)
  | "cons" => some (.primitive .cons)
  | "car" => some (.primitive .car)
  | "cdr" => some (.primitive .cdr)
  | "list" => some (.primitive .list)
  | "list-ref" => some (.primitive .listRef)
  | "list-tail" => some (.primitive .listTail)
  | "set-car!" => some (.primitive .setCar)
  | "set-cdr!" => some (.primitive .setCdr)
  | _ => none

/-- Every operator is listed. -/
theorem mem_all (op : Operator) : op ∈ all := by
  rcases op with form | op
  · cases form <;> decide
  · cases op <;> decide

/-- An operator is found under its name. -/
theorem named?_name (op : Operator) : named? op.name = some op := by
  rcases op with form | op
  · cases form <;> rfl
  · cases op <;> rfl

theorem name_injective : Function.Injective name := fun op op' h =>
  Option.some.inj ((named?_name op).symm.trans (h ▸ named?_name op'))

/-- An operator is found under its own name only. -/
theorem name_of_named? {name : String} {op : Operator} (h : named? name = some op) :
    op.name = name := by
  unfold named? at h
  split at h <;> cases h <;> rfl

/-- The names that are found are the listed ones. -/
theorem mem_names_iff {name : String} :
    name ∈ all.map Operator.name ↔ ∃ op, named? name = some op := by
  rw [List.mem_map]
  constructor
  · rintro ⟨op, -, rfl⟩
    exact ⟨op, named?_name op⟩
  · rintro ⟨op, hop⟩
    exact ⟨op, mem_all op, name_of_named? hop⟩

end Operator

end SmallScheme
