import SmallScheme.Eval.Error
import SmallScheme.Store.Chain
import SmallScheme.Store.Printer

/-!
# Procedures

Making a closure from the parts of a `lambda` form, and calling one. A call
binds the parameters in a new frame inside the scope in which the closure was
made, and evaluates the body there; the caller's frame plays no part in it.

Evaluation itself is a parameter here (`Evaluator`): what a call or a form does
is said for any way of evaluating the expressions in it.
-/

namespace SmallScheme

open StoreM

/-- A way of evaluating an expression in a scope. -/
abbrev Evaluator := Value → FrameRef → Eval Value

namespace Eval

/-- The rendering of a value. -/
def render (v : Value) : Eval String := find fun s => s.render? v

/-- The elements of a proper list. In the error for any other value, `what` says
    what the list is used for. -/
def properList (what : String) (v : Value) : Eval (List Value) := do
  match ← find fun s => s.elements? v with
  | (items, .nil) => pure items
  | (_, tail) => fail (.arguments (.dottedTail what tail.atomText))

/-- The values of the operands in the list `operands`, from left to right. -/
def operandValues (ev : Evaluator) (operands : Value) (scope : FrameRef) : Eval (List Value) := do
  let forms ← properList "argument list" operands
  forms.mapM fun form => ev form scope

/-- The name of a parameter. -/
def parameterName : Value → Eval String
  | .symbol name => pure name
  | v => do
    let shown ← render v
    fail (.malformed (.parameterNotSymbol shown))

/-- The names in the parameter list `params`. -/
def parameterNames (params : Value) : Eval (List String) := do
  if params.isListLike then
    match ← find fun s => s.elements? params with
    | (items, .nil) => items.mapM parameterName
    | (_, tail) => fail (.malformed (.parametersDotted tail.atomText))
  else fail (.malformed (.parametersNotList params.atomText))

/-- The closure made in `scope` by a `lambda` form of the given parts. -/
def makeClosure (scope : FrameRef) : List Value → Eval ClosureRef
  | [] => fail (.malformed .lambdaEmpty)
  | [_] => fail (.malformed .lambdaWithoutBody)
  | params :: body => do
    let names ← parameterNames params
    create fun s => s.newClosure ⟨names, body, scope⟩

/-- The value of the last of `body`, all of which are evaluated in turn. -/
def body (ev : Evaluator) (scope : FrameRef) (body : List Value) : Eval Value :=
  body.foldlM (fun _ form => ev form scope) .nil

/-- The value of a call of the closure `c`. Parameters are bound in order, so a
    name that occurs twice keeps the later argument. -/
def call (ev : Evaluator) (c : ClosureRef) (args : List Value) : Eval Value := do
  let closure ← read fun s => s.closure c
  if closure.params.length = args.length then
    let scope ← create fun s => s.newFrame (some closure.scope)
    modify fun s => (closure.params.zip args).foldl (fun s (name, v) => s.define scope name v) s
    body ev scope closure.body
  else fail (.arguments (.procedureCount closure.params.length args.length))

end Eval

end SmallScheme
