import SmallScheme.Eval.Operator
import SmallScheme.Store.Monad

/-!
# Evaluation errors

Why an expression has no value, and the words for it. Where the words show a
value, the error holds the text shown: the value itself may have changed by the
time the error is reported.
-/

namespace SmallScheme

/-- How many operands a primitive takes. -/
inductive Arity where
  /-- This many. -/
  | exactly (n : Nat)
  /-- This many or more. -/
  | atLeast (n : Nat)
deriving DecidableEq, Repr

/-- The words for an arity. -/
def Arity.text : Arity → String
  | exactly n => "exactly " ++ n.repr
  | atLeast n => "at least " ++ n.repr

/-- What a primitive needs an operand to be. -/
inductive Requirement where
  /-- An integer. -/
  | integer
  /-- A pair. -/
  | pair
  /-- A chain of pairs that ends in the empty list, if it ends. -/
  | list
deriving DecidableEq, Repr

/-- The words for a requirement. -/
def Requirement.text : Requirement → String
  | integer => "an integer"
  | pair => "a pair"
  | list => "a list"

/-- What is wrong with the operands of a form. -/
inductive ArgumentFault where
  /-- What follows the name `callee` is neither a pair nor the empty list. -/
  | operandsNotList (callee shown : String)
  /-- A list, used as `what`, ends in something other than the empty list. -/
  | dottedTail (what shown : String)
  /-- A closure has another number of parameters. -/
  | procedureCount (expected found : Nat)
  /-- A primitive takes another number of operands. -/
  | primitiveCount (op : Primitive) (expected : Arity) (found : Nat)
  /-- A quotation has another number of operands than one. -/
  | quoteCount
deriving DecidableEq, Repr

/-- The words for a fault of operands. -/
def ArgumentFault.message (fault : ArgumentFault) : String :=
  "Evaluation Error: Invalid arguments - " ++
    match fault with
    | operandsNotList callee shown =>
      "operands of '" ++ callee ++ "' must form a list, got '" ++ shown ++ "'"
    | dottedTail what shown =>
      what ++ " must be a proper list, found a dotted tail '" ++ shown ++ "'"
    | procedureCount expected found =>
      "procedure expects " ++ expected.repr ++ " arguments, got " ++ found.repr
    | primitiveCount op expected found =>
      "Primitive '" ++ op.name ++ "' expects " ++ expected.text ++ " arguments, got " ++ found.repr
    | quoteCount => "quote expects exactly one argument"

/-- What is wrong with a special form. -/
inductive FormFault where
  /-- A `lambda` without parameter list. -/
  | lambdaEmpty
  /-- A `lambda` without body. -/
  | lambdaWithoutBody
  /-- The parameters are neither a pair nor the empty list. -/
  | parametersNotList (shown : String)
  /-- The parameter list has a dotted tail. -/
  | parametersDotted (shown : String)
  /-- A parameter is not a symbol. -/
  | parameterNotSymbol (shown : String)
  /-- What should be bound is not a symbol. -/
  | targetNotSymbol (form : SpecialForm) (shown : String)
  /-- There is not just a name and a value. -/
  | targetAndValue (form : SpecialForm)
  /-- A conditional has too few or too many parts. -/
  | conditionalCount
  /-- The value of a condition is no truth value. -/
  | conditionNotBoolean (shown : String)
deriving DecidableEq, Repr

/-- The words for a fault of a special form. For a dotted parameter list they
    are those of the list's own fault, whole. -/
def FormFault.message (fault : FormFault) : String :=
  "Evaluation Error: Invalid special form - " ++
    match fault with
    | lambdaEmpty => "lambda expects a parameter list and a body"
    | lambdaWithoutBody => "lambda expects at least one body expression"
    | parametersNotList shown => "lambda parameters must be a list, got '" ++ shown ++ "'"
    | parametersDotted shown => (ArgumentFault.dottedTail "lambda parameter list" shown).message
    | parameterNotSymbol shown => "lambda parameter must be a symbol, got '" ++ shown ++ "'"
    | targetNotSymbol form shown =>
      form.name ++ " expects a symbol as its first argument, got '" ++ shown ++ "'"
    | targetAndValue form => form.name ++ " expects a name and a value"
    | conditionalCount => "if expects condition, consequent, and optional alternate"
    | conditionNotBoolean shown => "if condition must be #t or #f, got '" ++ shown ++ "'"

/-- Why an expression has no value. -/
inductive EvalError where
  /-- A variable means nothing here. -/
  | unbound (name : String)
  /-- A special form is not as it should be. -/
  | malformed (fault : FormFault)
  /-- The operands of a form are not as they should be. -/
  | arguments (fault : ArgumentFault)
  /-- A value has the wrong type for a primitive. -/
  | typeMismatch (op : Primitive) (expected : Requirement) (found : ValueType)
  /-- The head of a form cannot be called. -/
  | notCallable (shown : String)
  /-- The empty list was to be evaluated. -/
  | missingOperand
  /-- A list has nothing at this index. -/
  | indexOutOfRange (op : Primitive) (index : Fixnum)
  /-- A divisor is zero. -/
  | divisionByZero
  /-- A result does not fit its word. -/
  | overflow (op : Primitive)
deriving DecidableEq, Repr

/-- The words for an evaluation error. -/
def EvalError.message : EvalError → String
  | unbound name => "Unbound variable: '" ++ name ++ "'"
  | malformed fault => fault.message
  | arguments fault => fault.message
  | typeMismatch op expected found =>
    "Evaluation Error: " ++ op.name ++ " expects " ++ expected.text ++ ", got " ++ found.name
  | notCallable shown => "Evaluation Error: No such function: '" ++ shown ++ "'"
  | missingOperand => "Evaluation Error: Missing operand"
  | indexOutOfRange op index =>
    "Evaluation Error: " ++ op.name ++ ": index " ++ index.text ++ " is out of range"
  | divisionByZero => "Evaluation Error: Division by zero"
  | overflow op => "Evaluation Error: Integer overflow in '" ++ op.name ++ "'"

/-- A computation that evaluates something. -/
abbrev Eval (α : Type) := StoreM EvalError α

end SmallScheme
