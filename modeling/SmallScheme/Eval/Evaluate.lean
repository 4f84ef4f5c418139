import SmallScheme.Eval.Form
import SmallScheme.Eval.Primitive

/-!
# Evaluation

Integers, closures and truth values are their own values. Every other symbol is
a variable. A pair is a form: a head and a list of operands.

* If the head is a symbol that names an operator, the operator is applied,
  whatever the symbol may be bound to.
* If it is any other symbol, it must mean a closure, which is called.
* If it is a `lambda` form, the closure that this makes is called.
* Nothing else can be called; in particular, no form in head position is
  evaluated to find out what to call.

Evaluation need not end, so it is given a number of levels that it may go down
(`evaluate`). Where it comes to an end within them, more of them make no
difference.
-/

namespace SmallScheme.Eval

open StoreM

/-- The value of the form with the given head and operands. -/
def application (ev : Evaluator) (head operands : Value) (scope : FrameRef) : Eval Value :=
  match head with
  | .symbol name =>
    if operands.isListLike then
      match Operator.named? name with
      | some (.special form) => do
        let forms ← properList name operands
        form.apply ev scope forms
      | some (.primitive op) => do
        let args ← operandValues ev operands scope
        op.apply args
      -- Only here does a binding of the name count.
      | none => do
        match ← read fun s => s.lookup? scope name with
        | some (.closure c) =>
          let args ← operandValues ev operands scope
          call ev c args
        | _ => fail (.notCallable name)
    else fail (.arguments (.operandsNotList name operands.atomText))
  | .pair r => do
    let form ← read fun s => s.pair r
    if form.car = .symbol SpecialForm.lambda.name then
      let parts ← properList SpecialForm.lambda.name form.cdr
      let c ← makeClosure scope parts
      let args ← operandValues ev operands scope
      call ev c args
    else
      let shown ← render head
      fail (.notCallable shown)
  | _ => fail (.notCallable head.atomText)

/-- The value of an expression, given a way of evaluating what is in it. -/
def expression (ev : Evaluator) (v : Value) (scope : FrameRef) : Eval Value :=
  match v with
  | .nil => fail .missingOperand
  | .integer _ | .closure _ => pure v
  | .symbol name => do
    if v.isBoolean then pure v
    else
      match ← read fun s => s.lookup? scope name with
      | some w => pure w
      | none => fail (.unbound name)
  | .pair r => do
    let form ← read fun s => s.pair r
    application ev form.car form.cdr scope

/-- The value of an expression in a scope, found within `n` levels of
    evaluation inside evaluation. -/
def evaluate : Nat → Evaluator
  | 0 => fun _ _ => diverge
  | n + 1 => expression (evaluate n)

end SmallScheme.Eval
