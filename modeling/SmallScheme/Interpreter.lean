import SmallScheme.Datum.Reader
import SmallScheme.Eval.Evaluate
import SmallScheme.Store.Load

/-!
# Interpreters

An interpreter owns a global frame. It is given texts, one expression each, and
answers each with the rendering of a value or with an error. What one text
defines is there for the next, and so is what a text changed before it failed.

The frame lives in a store, which several interpreters may share.
-/

namespace SmallScheme

open StoreM

/-- Why a text has no answer. -/
inductive RunError where
  /-- It is not one datum. -/
  | reading (e : ReadError)
  /-- Its expression has no value. -/
  | evaluation (e : EvalError)
  /-- There is no expression in it, or only the empty list. -/
  | nothingEntered
deriving DecidableEq, Repr

/-- The kinds of errors that users are told about. -/
inductive ErrorFamily where
  /-- The text or a special form is not put together properly. -/
  | form
  /-- A name means nothing. -/
  | name
  /-- Anything else. -/
  | runtime
deriving DecidableEq, Repr

/-- The words for a family. -/
def ErrorFamily.text : ErrorFamily → String
  | form => "Syntax error"
  | name => "Name error"
  | runtime => "Runtime error"

namespace RunError

/-- The family that an error belongs to. -/
def family : RunError → ErrorFamily
  | reading _ => .form
  | evaluation (.malformed _) => .form
  | evaluation (.unbound _) => .name
  | evaluation _ => .runtime
  | nothingEntered => .runtime

/-- The words for an error. -/
def message : RunError → String
  | reading e => e.message
  | evaluation e => e.message
  | nothingEntered => "Nothing was entered"

/-- The line that tells a user about an error. -/
def line (e : RunError) : String := e.family.text ++ ": " ++ e.message

end RunError

/-- The one datum that a text says, the empty list not counting as one. -/
def readExpression (text : String) : Except RunError Datum :=
  match TokenStream.ofText text with
  | .error e => .error (.reading (.lexical e))
  | .ok stream =>
    if stream.isEnd then .error .nothingEntered
    else
      match stream.readOnly with
      | .error e => .error (.reading e)
      | .ok .nil => .error .nothingEntered
      | .ok datum => .ok datum

/-- An interpreter. -/
structure Interpreter where
  /-- Its global frame. -/
  scope : FrameRef
deriving DecidableEq, Repr

namespace Interpreter

/-- A new interpreter, in a global frame without bindings. -/
def new (s : Store) : Interpreter × Store :=
  let (scope, s) := s.newFrame none
  (⟨scope⟩, s)

/-- Evaluates a datum within `n` levels. -/
def evaluate (i : Interpreter) (n : Nat) (datum : Datum) : Eval Value := do
  let v ← create fun s => s.load datum
  Eval.evaluate n v i.scope

/-- Answers a text within `n` levels of evaluation. -/
def run (i : Interpreter) (n : Nat) (text : String) : StoreM RunError String := do
  let datum ← ofExcept (readExpression text)
  mapError .evaluation do
    let v ← i.evaluate n datum
    Eval.render v

/-- Answers texts one after the other, going on after errors; nothing if one of
    them has no answer within `n` levels. -/
def runAll (i : Interpreter) (n : Nat) :
    List String → Store → Option (List (Except RunError String) × Store)
  | [], s => some ([], s)
  | text :: texts, s =>
    match (i.run n text).run s with
    | .value output s => (i.runAll n texts s).map fun (answers, s) => (.ok output :: answers, s)
    | .error e s => (i.runAll n texts s).map fun (answers, s) => (.error e :: answers, s)
    | .unfinished => none

end Interpreter

end SmallScheme
