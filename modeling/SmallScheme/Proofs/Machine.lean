import SmallScheme.Eval.Evaluate
import Mathlib

/-!
# The evaluation machine

Evaluation in small steps. A *machine* has a store, a control, which says what
is being done now, and a list of what waits for the outcome, innermost first.
In one step the control is carried on until the next subexpression is reached,
or a value, or an error; a value is handed to what is innermost, an error takes
away what waits.

Where `Eval.evaluate` only tells how an evaluation ends, the machine also passes
through everything in between. Both come to the same end
(`SmallScheme.Proofs.Machine.Adequacy`), so what holds of every machine on the
way holds at every point of an evaluation, also of one that does not end.
-/

namespace SmallScheme

open StoreM

/-- What is applied to the values of operands. -/
inductive Callee where
  /-- A primitive. -/
  | primitive (op : Primitive)
  /-- A closure. -/
  | closure (c : ClosureRef)

/-- What waits for the value of an expression. -/
inductive Pending where
  /-- A form some of whose operands have values already. -/
  | operand (callee : Callee) (scope : FrameRef) (values forms : List Value)
  /-- The rest of a closure body. -/
  | body (scope : FrameRef) (forms : List Value)
  /-- A definition. -/
  | define (scope : FrameRef) (name : String)
  /-- An assignment. -/
  | assign (scope : FrameRef) (name : String)
  /-- The branches of a conditional. -/
  | branch (scope : FrameRef) (consequent : Value) (alternative : Option Value)
  /-- The rest of a conjunction or disjunction. -/
  | junction (scope : FrameRef) (goesOn : Value → Bool) (forms : List Value)

/-- What is being done. -/
inductive Control where
  /-- An expression is evaluated. -/
  | evaluate (v : Value) (scope : FrameRef)
  /-- Something is applied to the values of its operands. -/
  | apply (callee : Callee) (args : List Value)
  /-- An expression has a value. -/
  | value (v : Value)
  /-- An expression has an error. -/
  | error (e : EvalError)

/-- What comes next: the control, and what waits for it in addition. -/
abbrev Move := Control × List Pending

namespace Move

/-- The remaining operands of a form are evaluated, then it is applied. -/
def operands (callee : Callee) (scope : FrameRef) (values : List Value) : List Value → Move
  | [] => (.apply callee values, [])
  | form :: forms => (.evaluate form scope, [.operand callee scope values forms])

/-- The remaining forms of a closure body are evaluated in turn; `last` is the
    value of the latest. -/
def body (scope : FrameRef) (last : Value) : List Value → Move
  | [] => (.value last, [])
  | form :: forms => (.evaluate form scope, [.body scope forms])

/-- The remaining forms of a conjunction or disjunction are evaluated in turn. -/
def junction (scope : FrameRef) (goesOn : Value → Bool) (last : Value) : List Value → Move
  | [] => (.value last, [])
  | form :: forms => (.evaluate form scope, [.junction scope goesOn forms])

/-- How a form starts whose operands are evaluated. -/
def call (callee : Callee) (operands : Value) (scope : FrameRef) : Eval Move := do
  let forms ← Eval.properList "argument list" operands
  pure (Move.operands callee scope [] forms)

/-- How a special form starts. -/
def special (form : SpecialForm) (scope : FrameRef) (operands : List Value) : Eval Move :=
  match form with
  | .quote =>
    match operands with
    | [datum] => pure (.value datum, [])
    | _ => fail (.arguments .quoteCount)
  | .define => do
    let (name, expression) ← Eval.target .define operands
    pure (.evaluate expression scope, [.define scope name])
  | .assign => do
    let (name, expression) ← Eval.target .assign operands
    if ← read fun s => s.bindsLocally scope name then
      pure (.evaluate expression scope, [.assign scope name])
    else fail (.unbound name)
  | .conditional =>
    match operands with
    | [condition, consequent] =>
      pure (.evaluate condition scope, [.branch scope consequent none])
    | [condition, consequent, alternative] =>
      pure (.evaluate condition scope, [.branch scope consequent (some alternative)])
    | _ => fail (.malformed .conditionalCount)
  | .lambda => do
    let c ← Eval.makeClosure scope operands
    pure (.value (.closure c), [])
  | .conjunction => pure (junction scope (fun v => !v.isFalse) (.ofBool true) operands)
  | .disjunction => pure (junction scope (fun v => v.isFalse) (.ofBool false) operands)

/-- How the form with the given head and operands starts. -/
def application (head operands : Value) (scope : FrameRef) : Eval Move :=
  match head with
  | .symbol name =>
    if operands.isListLike then
      match Operator.named? name with
      | some (.special form) => do
        let forms ← Eval.properList name operands
        special form scope forms
      | some (.primitive op) => call (.primitive op) operands scope
      | none => do
        match ← read fun s => s.lookup? scope name with
        | some (.closure c) => call (.closure c) operands scope
        | _ => fail (.notCallable name)
    else fail (.arguments (.operandsNotList name operands.atomText))
  | .pair r => do
    let form ← read fun s => s.pair r
    if form.car = .symbol SpecialForm.lambda.name then
      let parts ← Eval.properList SpecialForm.lambda.name form.cdr
      let c ← Eval.makeClosure scope parts
      call (.closure c) operands scope
    else
      let shown ← Eval.render head
      fail (.notCallable shown)
  | _ => fail (.notCallable head.atomText)

/-- How the evaluation of an expression starts. -/
def evaluate (v : Value) (scope : FrameRef) : Eval Move :=
  match v with
  | .nil => fail .missingOperand
  | .integer _ | .closure _ => pure (.value v, [])
  | .symbol name => do
    if v.isBoolean then pure (.value v, [])
    else
      match ← read fun s => s.lookup? scope name with
      | some w => pure (.value w, [])
      | none => fail (.unbound name)
  | .pair r => do
    let form ← read fun s => s.pair r
    application form.car form.cdr scope

/-- How something is applied to values. -/
def apply (callee : Callee) (args : List Value) : Eval Move :=
  match callee with
  | .primitive op => do
    let v ← op.apply args
    pure (.value v, [])
  | .closure c => do
    let closure ← read fun s => s.closure c
    if closure.params.length = args.length then
      let scope ← create fun s => s.newFrame (some closure.scope)
      modify fun s => (closure.params.zip args).foldl (fun s (name, v) => s.define scope name v) s
      pure (body scope .nil closure.body)
    else fail (.arguments (.procedureCount closure.params.length args.length))

/-- How what waits goes on with the value `v`. -/
def resume (v : Value) : Pending → Eval Move
  | .operand callee scope values forms => pure (operands callee scope (values ++ [v]) forms)
  | .body scope forms => pure (body scope v forms)
  | .define scope name => do
    modify fun s => s.define scope name v
    pure (.value (.symbol name), [])
  | .assign scope name => do
    let w ← Eval.assign scope name v
    pure (.value w, [])
  | .branch scope consequent alternative =>
    if v.isBoolean then
      if v.isFalse then
        match alternative with
        | some alternative => pure (.evaluate alternative scope, [])
        | none => pure (.value .nil, [])
      else pure (.evaluate consequent scope, [])
    else do
      let shown ← Eval.render v
      fail (.malformed (.conditionNotBoolean shown))
  | .junction scope goesOn forms =>
    pure (if goesOn v then junction scope goesOn v forms else (.value v, []))

end Move

/-- A machine that evaluates an expression. -/
structure Machine where
  /-- What is being done. -/
  control : Control
  /-- What waits for its outcome, the innermost first. -/
  pending : List Pending
  /-- The store as it is now. -/
  store : Store

namespace Machine

/-- The machine `m` carried on by a move that leaves `waiting` to wait. A move
    that does not end leaves the machine as it is, for ever. -/
def follow (m : Machine) (move : Eval Move) (waiting : List Pending) : Machine :=
  match move.run m.store with
  | .value (control, added) s => ⟨control, added ++ waiting, s⟩
  | .error e s => ⟨.error e, waiting, s⟩
  | .unfinished => m

/-- The next machine, unless the evaluation has ended. -/
def step (m : Machine) : Option Machine :=
  match m.control, m.pending with
  | .evaluate v scope, waiting => some (m.follow (Move.evaluate v scope) waiting)
  | .apply callee args, waiting => some (m.follow (Move.apply callee args) waiting)
  | .value v, inner :: waiting => some (m.follow (Move.resume v inner) waiting)
  | .error e, _ :: waiting => some ⟨.error e, waiting, m.store⟩
  | .value _, [] => none
  | .error _, [] => none

/-- One machine comes to the other in some number of steps. -/
def Reaches : Machine → Machine → Prop := Relation.ReflTransGen fun m m' => m.step = some m'

/-- The evaluation has come to its end. -/
def Ended (m : Machine) : Prop := m.step = none

end Machine

end SmallScheme
