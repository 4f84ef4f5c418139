import SmallScheme.Proofs.Hiding.Evaluate
import SmallScheme.Proofs.Machine.Start
import SmallScheme.Proofs.World.Growth

/-!
# Calls of procedures as computations

What the calls of a `lambda` form and of a name come to: both find out the arguments and
call a closure (`Eval.callOn`), and what closure a `lambda` form describes is found out by
one computation (`Eval.lambdaClosure`), be it that the form is called or that a name is
defined by it. This holds of forms in the store (`Eval.evaluate_inline`,
`Eval.evaluate_definition`, `Eval.evaluate_named`) and so of forms as they are read
(`Interpreter.run_inline`, `Interpreter.run_definition`, `Interpreter.run_named`).
-/

namespace SmallScheme

open StoreM

/-! ## Forms in the store -/

namespace Eval

/-- The closure that a `lambda` form with the given operands describes. -/
def lambdaClosure (operands : Value) (scope : FrameRef) : Eval Closure := do
  let parts ← properList SpecialForm.lambda.name operands
  closureOf scope parts

/-- The value of a call of a closure, from the expressions of its arguments on. -/
def callOn (ev : Evaluator) (operands : Value) (scope : FrameRef) (c : ClosureRef) : Eval Value := do
  let args ← operandValues ev operands scope
  call ev c args

variable {s : Store} {scope : FrameRef} {name : String} {r q : PairRef} {operands rest v : Value}

theorem evaluate_pair (n : Nat) (h : s.pair r = ⟨v, operands⟩) :
    (evaluate (n + 1) (.pair r) scope).run s =
      (application (evaluate n) v operands scope).run s := by
  rw [evaluate, expression, run_bind, run_read]
  simp only [h]

theorem application_special (ev : Evaluator) {form : SpecialForm} (hlist : operands.isListLike) :
    application ev (.symbol form.name) operands scope =
      properList form.name operands >>= form.apply ev scope := by
  rw [application, if_pos hlist]
  cases form <;> rfl

/-- What a special form with proper operands comes to. -/
theorem evaluate_special (n : Nat) {form : SpecialForm} {items : List Value}
    (h : s.pair r = ⟨.symbol form.name, operands⟩)
    (hitems : s.elements? operands = some (items, .nil)) :
    (evaluate (n + 1) (.pair r) scope).run s = (form.apply (evaluate n) scope items).run s := by
  rw [evaluate_pair n h, application_special _ (Store.isListLike_of_elements? hitems), run_bind,
    properList_eq_value_iff.2 hitems]

/-- A `lambda` form that is called where it stands. -/
theorem evaluate_inline (n : Nat) (h : s.pair r = ⟨.pair q, operands⟩)
    (hform : s.pair q = ⟨.symbol SpecialForm.lambda.name, rest⟩) :
    (evaluate (n + 1) (.pair r) scope).run s =
      (lambdaClosure rest scope >>= fun c => create (fun s => s.newClosure c) >>=
        callOn (evaluate n) operands scope).run s := by
  rw [evaluate_pair n h, application, run_bind, run_read]
  simp only [hform, if_true, makeClosure_eq, lambdaClosure, bind_assoc]
  rfl

/-- A closure that is called by a name. -/
theorem evaluate_named (n : Nat) (h : s.pair r = ⟨.symbol name, operands⟩)
    (hlist : operands.isListLike) (hname : Operator.named? name = none) {c : ClosureRef}
    (hc : s.lookup? scope name = some (.closure c)) :
    (evaluate (n + 1) (.pair r) scope).run s = (callOn (evaluate n) operands scope c).run s := by
  rw [evaluate_pair n h, application, if_pos hlist, hname]
  dsimp only
  rw [run_bind, run_read, hc]
  rfl

/-- A definition of a name by a `lambda` form. -/
theorem evaluate_definition (n : Nat) {r₁ r₂ : PairRef}
    (h : s.pair r = ⟨.symbol SpecialForm.define.name, .pair r₁⟩)
    (h₁ : s.pair r₁ = ⟨.symbol name, .pair r₂⟩) (h₂ : s.pair r₂ = ⟨.pair q, .nil⟩)
    (hform : s.pair q = ⟨.symbol SpecialForm.lambda.name, rest⟩) (hlist : rest.isListLike) :
    (evaluate (n + 2) (.pair r) scope).run s =
      (lambdaClosure rest scope >>= fun c => create (fun s => s.newClosure c) >>= fun c =>
        modify (fun s => s.define scope name (.closure c)) >>= fun _ => pure (.symbol name)).run s := by
  have helements : s.elements? (.pair r₁) = some ([.symbol name, .pair q], .nil) :=
    Store.elements?_eq_some_iff.2 ⟨2, by simp [Store.elementsUpTo, h₁, h₂]⟩
  have hlambda : (evaluate (n + 1) (.pair q) scope).run s =
      (Value.closure <$> (lambdaClosure rest scope >>= fun c =>
        create fun s => s.newClosure c)).run s := by
    rw [evaluate_pair n hform, application_special _ hlist]
    simp only [lambdaClosure, bind_assoc, ← makeClosure_eq]
    rw [map_eq_pure_bind, bind_assoc]
    rfl
  rw [evaluate_special (n + 1) h helements]
  change (Eval.define _ _ _).run s = _
  rw [Eval.define]
  simp only [target, pure_bind, run_bind, hlambda, map_eq_pure_bind, bind_assoc]
  cases (lambdaClosure rest scope).run s <;> rfl

theorem closureOf_satisfies (scope : FrameRef) (parts : List Value) :
    ((closureOf scope parts).run s).Leaves (· = s) := by
  rcases parts with _ | ⟨params, _ | ⟨form, body⟩⟩
  · rfl
  · rfl
  · simp only [closureOf, satisfies_bind]
    exact (parameterNames_satisfies params).imp (fun _ _ h => h.1) fun _ _ h => h.1

/-- To find out which closure it will be changes nothing. -/
theorem lambdaClosure_satisfies (operands : Value) (scope : FrameRef) :
    ((lambdaClosure operands scope).run s).Leaves (· = s) := by
  simp only [lambdaClosure, satisfies_bind]
  refine (properList_satisfies _ operands).imp (fun parts t ht => ?_) fun _ _ h => h.1
  exact ht.1 ▸ closureOf_satisfies scope parts

theorem hides_lambdaClosure {live : Place → Prop} (h : operands.Avoids name live)
    (hf : live (.frame scope)) :
    (lambdaClosure operands scope).Hides name live fun c => (Cell.closure c).Avoids name live :=
  hides_bind (hides_properList _ h) fun _ hparts => hides_closureOf hparts hf

theorem hides_callOn {live : Place → Prop} (hname : (Value.symbol name).isBoolean = false) (n : Nat)
    (h : operands.Avoids name live) (hf : live (.frame scope)) {c : ClosureRef}
    (hc : live (.closure c)) :
    (callOn (evaluate n) operands scope c).Hides name live (Value.Avoids name live) :=
  hides_bind (hides_operandValues (hides_evaluate hname n) h hf) fun _ hargs =>
    hides_call (hides_evaluate hname n) hc hargs

end Eval

namespace World

open Eval

variable {W : World} {scope scope' : FrameRef} {v w : Value}

theorem simulates_lambdaClosure (h : W.rel.OnValue v w)
    (hscope : W.rel (.frame scope) (.frame scope')) :
    W.Simulates (fun W => W.rel.OnClosure) (lambdaClosure v scope) (lambdaClosure w scope') :=
  simulates_bind (simulates_properList _ h) fun _ _ _ h₁ hparts =>
    simulates_closureOf (h₁.le _ _ hscope) hparts

theorem simulates_callOn (n : Nat) (h : W.rel.OnValue v w)
    (hscope : W.rel (.frame scope) (.frame scope')) {c d : ClosureRef}
    (hc : W.rel (.closure c) (.closure d)) :
    W.Simulates (fun W => W.rel.OnValue) (callOn (evaluate n) v scope c)
      (callOn (evaluate n) w scope' d) :=
  simulates_bind (simulates_operandValues (respects_evaluate n) h hscope)
    fun _ _ _ h₁ hargs => simulates_call (respects_evaluate n) (h₁.le _ _ hc) hargs

end World

/-! ## Forms as they are read -/

namespace Datum

/-- The form with a head and operands. -/
def form (head : Datum) (operands : List Datum) : Datum := chain (head :: operands) nil

/-- The `lambda` form with the given parts. -/
def lambda (parts : List Datum) : Datum := form (symbol SpecialForm.lambda.name) parts

/-- The definition of a name. -/
def definition (name : String) (d : Datum) : Datum :=
  form (symbol SpecialForm.define.name) [symbol name, d]

end Datum

namespace Store

variable {s : Store}

theorem isListLike_load_chain (items : List Datum) :
    (s.load (.chain items .nil)).1.isListLike := by
  cases items <;> rfl

theorem lookup?_of_local {f : FrameRef} {name : String} {v : Value}
    (h : (s.frame f).bindings.lookup name = some v) : s.lookup? f name = some v := by
  rw [lookup?, scopes, scopesUpTo, List.findSome?_cons, h]

end Store

namespace Interpreter

open Eval

variable (i : Interpreter) (n : Nat) (parts operands : List Datum) (name : String) (s : Store)

theorem grows_load_form (head : Datum) : (s.load head).2.Grows (s.load (.form head operands)).2 :=
  (Store.grows_load _).trans (Store.grows_cons _ _)

theorem grows_load_definition (d : Datum) :
    (s.load d).2.Grows (s.load (.definition name d)).2 :=
  (Store.grows_cons _ _).trans ((Store.grows_cons _ _).trans (Store.grows_cons _ _))

theorem run_inline : (i.evaluate (n + 1) (.form (.lambda parts) operands)).run s =
    (lambdaClosure (s.load (.chain parts .nil)).1 i.scope >>= fun c =>
      create (fun s => s.newClosure c) >>=
        callOn (Eval.evaluate n) ((s.load (.lambda parts)).2.load (.chain operands .nil)).1
          i.scope).run (s.load (.form (.lambda parts) operands)).2 :=
  evaluate_inline n Store.pair_cons_self
    (Store.pair_of_grows (grows_load_form operands s (.lambda parts)))

theorem run_definition : (i.evaluate (n + 2) (.definition name (.lambda parts))).run s =
    (lambdaClosure (s.load (.chain parts .nil)).1 i.scope >>= fun c =>
      create (fun s => s.newClosure c) >>= fun c =>
        modify (fun s => s.define i.scope name (.closure c)) >>= fun _ =>
          pure (.symbol name)).run (s.load (.definition name (.lambda parts))).2 :=
  evaluate_definition n Store.pair_cons_self (Store.pair_of_grows (Store.grows_cons _ _))
    (Store.pair_of_grows ((Store.grows_cons _ _).trans (Store.grows_cons _ _)))
    (Store.pair_of_grows (grows_load_definition name s (.lambda parts)))
    (Store.isListLike_load_chain parts)

theorem run_named (hname : Operator.named? name = none) {c : ClosureRef}
    (hc : (s.frame i.scope).bindings.lookup name = some (.closure c)) :
    (i.evaluate (n + 1) (.form (.symbol name) operands)).run s =
      (callOn (Eval.evaluate n) (s.load (.chain operands .nil)).1 i.scope c).run
        (s.load (.form (.symbol name) operands)).2 := by
  have hframe : (s.load (.form (.symbol name) operands)).2.frame i.scope = s.frame i.scope :=
    Store.frame_congr (Store.frames_load _) _
  rw [← hframe] at hc
  exact evaluate_named n Store.pair_cons_self (Store.isListLike_load_chain operands) hname
    (Store.lookup?_of_local hc)

end Interpreter

end SmallScheme
