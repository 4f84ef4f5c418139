import SmallScheme.Eval.Primitive
import SmallScheme.Proofs.Outcome
import SmallScheme.Proofs.Store.Reach

/-!
# What primitives do

All that a primitive can do to a store, and all that it can result in
(`Primitive.Effect`): it fails and leaves the store as it is, it results in
something that has no place in the store, or in something reached from an operand,
it makes a pair or a list, or it changes one pair. It always ends.

What evaluation keeps is shown for these effects, and then holds of every
primitive (`effect_apply`).
-/

namespace SmallScheme

/-- A value without a place in the store. -/
def Value.Plain : Value → Prop
  | .nil | .integer _ | .symbol _ => True
  | .pair _ | .closure _ => False

theorem Value.plain_integer (n : Fixnum) : (Value.integer n).Plain := trivial

theorem Value.plain_ofBool (b : Bool) : (Value.ofBool b).Plain := trivial

namespace Primitive

/-- How a primitive may end for the given operands, in the given store. -/
inductive Effect (s : Store) : Primitive → List Value → Outcome EvalError Value → Prop
  | error {op : Primitive} {args : List Value} (e : EvalError) : Effect s op args (.error e s)
  | plain {op : Primitive} {args : List Value} {v : Value} : v.Plain → Effect s op args (.value v s)
  | part {op : Primitive} {args : List Value} {v w : Value} : v ∈ args → s.Reaches v w →
      Effect s op args (.value w s)
  | cons (v w : Value) : Effect s .cons [v, w] (.value (s.cons v w).1 (s.cons v w).2)
  | list (args : List Value) : Effect s .list args (.value (s.list args).1 (s.list args).2)
  | setCar (r : PairRef) (w : Value) : Effect s .setCar [.pair r, w] (.value .nil (s.setCar r w))
  | setCdr (r : PairRef) (w : Value) : Effect s .setCdr [.pair r, w] (.value .nil (s.setCdr r w))

/-- The result, if there is one, is as `P` says. -/
def Yields (P : Value → Prop) (result : Except EvalError Value) : Prop := ∀ v, result = .ok v → P v

section Yields

variable {P : Value → Prop}

theorem yields_error (e : EvalError) : Yields P (.error e) := fun _ h => nomatch h

theorem yields_ok {v : Value} (h : P v) : Yields P (.ok v) := by
  intro _ hv
  cases hv
  exact h

theorem yields_bind {α : Type} {x : Except EvalError α} {f : α → Except EvalError Value}
    (h : ∀ a, Yields P (f a)) : Yields P (x >>= f) := by
  cases x with
  | error e => exact yields_error e
  | ok a => exact h a

theorem yields_compare (hP : ∀ b, P (.ofBool b)) (op : Primitive) (rel : Fixnum → Fixnum → Bool)
    (args : List Value) : Yields P (compare op rel args) :=
  yields_bind fun _ => yields_ok (hP _)

variable (hP : ∀ n, P (.integer n))

include hP

theorem yields_fitting (op : Primitive) (result : Option Fixnum) :
    Yields P (fitting op result) := by
  cases result with
  | none => exact yields_error _
  | some n => exact yields_ok (hP n)

theorem yields_integer (result : Except EvalError Fixnum) :
    Yields P (Value.integer <$> result) := by
  cases result with
  | error e => exact yields_error e
  | ok n => exact yields_ok (hP n)

theorem yields_sum (args : List Value) : Yields P (sum args) :=
  yields_bind fun _ => yields_fitting hP _ _

theorem yields_product (args : List Value) : Yields P (product args) :=
  yields_bind fun _ => yields_fitting hP _ _

theorem yields_absolute (args : List Value) : Yields P (absolute args) := by
  unfold absolute
  split
  · exact yields_bind fun n => yields_fitting hP _ _
  · exact yields_error _

theorem yields_difference (args : List Value) : Yields P (difference args) :=
  yields_bind fun numbers => by
    split
    · exact yields_error _
    · exact yields_fitting hP _ _
    · exact yields_fitting hP _ _

theorem yields_quotient (args : List Value) : Yields P (quotient args) :=
  yields_bind fun numbers => by
    split
    · exact yields_error _
    · exact yields_integer hP _
    · exact yields_integer hP _

theorem yields_greatest (args : List Value) : Yields P (greatest args) :=
  yields_bind fun numbers => by
    split
    · exact yields_error _
    · exact yields_ok (hP _)

theorem yields_least (args : List Value) : Yields P (least args) :=
  yields_bind fun numbers => by
    split
    · exact yields_error _
    · exact yields_ok (hP _)

end Yields

section Effect

variable {s : Store} {op : Primitive}

theorem effect_ofExcept {result : Except EvalError Value} (h : Yields Value.Plain result)
    (args : List Value) : Effect s op args ((StoreM.ofExcept result).run s) := by
  cases result with
  | error e => exact .error e
  | ok v => exact .plain (h v rfl)

/-- A primitive of one operand has an effect if it has one for every operand. -/
theorem effect_unary {f : Value → Eval Value} (h : ∀ v, Effect s op [v] ((f v).run s))
    (args : List Value) : Effect s op args ((unary op f args).run s) := by
  rcases args with _ | ⟨v, _ | ⟨w, args⟩⟩
  · exact .error _
  · exact h v
  · exact .error _

/-- A primitive of two operands has an effect if it has one for all operands. -/
theorem effect_binary {f : Value → Value → Eval Value}
    (h : ∀ v w, Effect s op [v, w] ((f v w).run s)) (args : List Value) :
    Effect s op args ((binary op f args).run s) := by
  rcases args with _ | ⟨v, _ | ⟨w, _ | ⟨u, args⟩⟩⟩
  · exact .error _
  · exact .error _
  · exact h v w
  · exact .error _

theorem effect_predicate (p : Value → Bool) (args : List Value) :
    Effect s op args ((predicate op p args).run s) :=
  effect_unary (fun _ => .plain (Value.plain_ofBool _)) args

/-- An operation on a pair has an effect if it has one for every pair. -/
theorem effect_pairOf {f : PairRef → Eval Value} {v : Value} {args : List Value}
    (h : ∀ r, v = .pair r → Effect s op args ((f r).run s)) :
    Effect s op args ((pairOf op v >>= f).run s) := by
  cases v with
  | pair r => exact h r rfl
  | nil | integer | symbol | closure => exact .error _

/-- An operation at an index has an effect if it has one for every index. -/
theorem effect_indexOf {f : Nat × Fixnum → Eval Value} {i : Value} {args : List Value}
    (h : ∀ k, Effect s op args ((f k).run s)) :
    Effect s op args ((indexOf op i >>= f).run s) := by
  cases i with
  | integer n =>
    simp only [indexOf, integer, StoreM.ofExcept, pure_bind]
    split
    · exact .error _
    · exact h _
  | nil | symbol | pair | closure => exact .error _

/-- What lies at an index, and what is made of that, is within reach. -/
theorem effect_dropTo {f : Value → Eval Value} {v : Value} {k : Nat} {index : Fixnum}
    {args : List Value} (h : ∀ w, s.Reaches v w → Effect s op args ((f w).run s)) :
    Effect s op args ((dropTo op v k index >>= f).run s) := by
  simp only [dropTo, bind_assoc, StoreM.run_bind, StoreM.run_read]
  rcases hw : s.walk k v with tail | w
  · exact .error _
  · exact h w (Store.reaches_of_walk (.inl hw))

end Effect

/-- Every primitive has one of the effects. -/
theorem effect_apply (op : Primitive) (args : List Value) (s : Store) :
    Effect s op args ((op.apply args).run s) := by
  cases op with
  | add => exact effect_ofExcept (yields_sum Value.plain_integer args) args
  | mul => exact effect_ofExcept (yields_product Value.plain_integer args) args
  | sub => exact effect_ofExcept (yields_difference Value.plain_integer args) args
  | div => exact effect_ofExcept (yields_quotient Value.plain_integer args) args
  | max => exact effect_ofExcept (yields_greatest Value.plain_integer args) args
  | min => exact effect_ofExcept (yields_least Value.plain_integer args) args
  | abs => exact effect_ofExcept (yields_absolute Value.plain_integer args) args
  | eq | lt | gt | le | ge =>
    exact effect_ofExcept (yields_compare Value.plain_ofBool _ _ args) args
  | isNumber | isBoolean | isSymbol | isPair | isNull | not => exact effect_predicate _ args
  | isList =>
    refine effect_unary (fun v => ?_) args
    exact .plain (Value.plain_ofBool (s.isList v))
  | cons => exact effect_binary (fun v w => .cons v w) args
  | car =>
    refine effect_unary (fun v => effect_pairOf ?_) args
    rintro r rfl
    exact .part List.mem_cons_self (Store.reaches_car r)
  | cdr =>
    refine effect_unary (fun v => effect_pairOf ?_) args
    rintro r rfl
    exact .part List.mem_cons_self (Store.reaches_cdr r)
  | list => exact .list args
  | listRef =>
    refine effect_binary (fun v i => effect_indexOf fun k => effect_dropTo fun w hw => ?_) args
    cases w with
    | pair r => exact .part List.mem_cons_self (hw.trans (Store.reaches_car r))
    | nil | integer | symbol | closure => exact .error _
  | listTail =>
    refine effect_binary (fun v i => effect_indexOf fun (k, index) => ?_) args
    -- Nothing more is made of what lies at the index.
    change Effect s .listTail _ ((dropTo .listTail v k index).run s)
    rw [← bind_pure (dropTo .listTail v k index)]
    exact effect_dropTo fun w hw => .part List.mem_cons_self hw
  | setCar =>
    refine effect_binary (fun v w => effect_pairOf ?_) args
    rintro r rfl
    exact .setCar r w
  | setCdr =>
    refine effect_binary (fun v w => effect_pairOf ?_) args
    rintro r rfl
    exact .setCdr r w

end Primitive

end SmallScheme
