import SmallScheme.Eval.Procedure
import SmallScheme.Store.Scope

/-!
# Special forms

What each special form does with its operands. Its shape is checked before
anything in it is evaluated. Definitions and assignments act on the frame in
which the form is evaluated, and an assignment to a name that this frame does
not bind fails at once.
-/

namespace SmallScheme

open StoreM

namespace Eval

/-- The name and the expression of a definition or assignment. -/
def target (form : SpecialForm) : List Value → Eval (String × Value)
  | [.symbol name, expression] => pure (name, expression)
  | [other, _] => do
    let shown ← render other
    fail (.malformed (.targetNotSymbol form shown))
  | _ => fail (.malformed (.targetAndValue form))

/-- Binds a name to the value of an expression; the result is the name. -/
def define (ev : Evaluator) (scope : FrameRef) (operands : List Value) : Eval Value := do
  let (name, expression) ← target .define operands
  let v ← ev expression scope
  modify fun s => s.define scope name v
  pure (.symbol name)

/-- Stores `v` under a name that the frame is to bind already. -/
def assign (scope : FrameRef) (name : String) (v : Value) : Eval Value := fun s =>
  match s.assign? scope name v with
  | some s => .value .nil s
  | none => .error (.unbound name) s

/-- Changes the binding of a name to the value of an expression; the result is
    the empty list. -/
def set (ev : Evaluator) (scope : FrameRef) (operands : List Value) : Eval Value := do
  let (name, expression) ← target .assign operands
  if ← read fun s => s.bindsLocally scope name then
    let v ← ev expression scope
    assign scope name v
  else fail (.unbound name)

/-- The branch that a condition chooses, where a missing alternative stands for
    the empty list. -/
def branch (ev : Evaluator) (scope : FrameRef) (condition consequent : Value)
    (alternative : Option Value) : Eval Value := do
  let truth ← ev condition scope
  if truth.isBoolean then
    if truth.isFalse then
      match alternative with
      | some alternative => ev alternative scope
      | none => pure .nil
    else ev consequent scope
  else
    let shown ← render truth
    fail (.malformed (.conditionNotBoolean shown))

/-- Evaluates forms in turn for as long as their values satisfy `goesOn`. The
    result is the last value, or `last` if there is no form. -/
def evaluateWhile (ev : Evaluator) (scope : FrameRef) (goesOn : Value → Bool) (last : Value) :
    List Value → Eval Value
  | [] => pure last
  | form :: forms => do
    let v ← ev form scope
    if goesOn v then evaluateWhile ev scope goesOn v forms else pure v

end Eval

/-- The value of a special form with the given operands. -/
def SpecialForm.apply (form : SpecialForm) (ev : Evaluator) (scope : FrameRef)
    (operands : List Value) : Eval Value :=
  match form with
  | .quote =>
    match operands with
    | [datum] => pure datum
    | _ => fail (.arguments .quoteCount)
  | .define => Eval.define ev scope operands
  | .assign => Eval.set ev scope operands
  | .conditional =>
    match operands with
    | [condition, consequent] => Eval.branch ev scope condition consequent none
    | [condition, consequent, alternative] =>
      Eval.branch ev scope condition consequent (some alternative)
    | _ => fail (.malformed .conditionalCount)
  | .lambda => .closure <$> Eval.makeClosure scope operands
  | .conjunction => Eval.evaluateWhile ev scope (fun v => !v.isFalse) (.ofBool true) operands
  | .disjunction => Eval.evaluateWhile ev scope (fun v => v.isFalse) (.ofBool false) operands

end SmallScheme
