import SmallScheme.Proofs.Machine
import SmallScheme.Proofs.Outcome

/-!
# The machine and the evaluator agree

The evaluation machine comes to the same end as `Eval.evaluate`, or to none if
that has none.

Every control and everything that waits stands for a computation, given a way
of evaluating expressions (`Control.meaning`, `Pending.meaning`). What a form
means is what the move that starts it means (`expression_eq`, `resume_eq`). The
machine *performs* such a computation, with respect to a number of levels, if it
comes to the end of the computation, or can be carried on for at least so many
steps where the computation does not end within so many levels
(`Machine.Performs`). That it performs the evaluation of every expression is
shown by induction on the levels (`performs_evaluate`). From this the two agree
on values (`reaches_value_iff`), on errors (`reaches_error_iff`), and, as the
machine does only one thing at a time, on having no end.
-/

namespace SmallScheme

open StoreM

/-! ## What moves mean -/

/-- The computation that a control stands for. -/
def Control.meaning (ev : Evaluator) : Control → Eval Value
  | evaluate v scope => ev v scope
  | apply (.primitive op) args => op.apply args
  | apply (.closure c) args => Eval.call ev c args
  | value v => pure v
  | error e => fail e

/-- The computation that goes on with the value `v`. -/
def Pending.meaning (ev : Evaluator) (v : Value) : Pending → Eval Value
  | operand callee scope values forms => do
    let others ← forms.mapM fun form => ev form scope
    (Control.apply callee (values ++ v :: others)).meaning ev
  | body scope forms => forms.foldlM (fun _ form => ev form scope) v
  | define scope name => do
    modify fun s => s.define scope name v
    pure (.symbol name)
  | assign scope name => Eval.assign scope name v
  | branch scope consequent alternative =>
    if v.isBoolean then
      if v.isFalse then
        match alternative with
        | some alternative => ev alternative scope
        | none => pure .nil
      else ev consequent scope
    else do
      let shown ← Eval.render v
      fail (.malformed (.conditionNotBoolean shown))
  | junction scope goesOn forms =>
    if goesOn v then Eval.evaluateWhile ev scope goesOn v forms else pure v

namespace Move

variable (ev : Evaluator) (scope : FrameRef)

/-- The computation that a move stands for. -/
def meaning (move : Move) : Eval Value :=
  move.2.foldl (fun c p => c >>= fun v => p.meaning ev v) (move.1.meaning ev)

theorem meaning_operands (callee : Callee) (values forms : List Value) :
    (operands callee scope values forms).meaning ev = (do
      let others ← forms.mapM fun form => ev form scope
      (Control.apply callee (values ++ others)).meaning ev) := by
  cases forms with
  | nil => simp [operands, meaning]
  | cons form forms =>
    simp [operands, meaning, Control.meaning, Pending.meaning, List.mapM_cons]

theorem meaning_body (last : Value) (forms : List Value) :
    (body scope last forms).meaning ev = forms.foldlM (fun _ form => ev form scope) last := by
  cases forms <;> rfl

theorem meaning_junction (goesOn : Value → Bool) (last : Value) (forms : List Value) :
    (junction scope goesOn last forms).meaning ev =
      Eval.evaluateWhile ev scope goesOn last forms := by
  cases forms <;> rfl

theorem call_eq (callee : Callee) (forms : Value) :
    (call callee forms scope >>= meaning ev) = (do
      let args ← Eval.operandValues ev forms scope
      (Control.apply callee args).meaning ev) := by
  simp [call, Eval.operandValues, meaning_operands]

theorem special_eq (form : SpecialForm) (forms : List Value) :
    form.apply ev scope forms = special form scope forms >>= meaning ev := by
  cases form with
  | quote => rcases forms with _ | ⟨_, _ | ⟨_, _⟩⟩ <;> rfl
  | define =>
    simp only [SpecialForm.apply, Eval.define, special, bind_assoc]
    rfl
  | assign =>
    simp only [SpecialForm.apply, Eval.set, special, bind_assoc]
    congr
    funext target
    obtain ⟨name, expression⟩ := target
    -- Both ask whether the name is bound before they evaluate the expression.
    refine congrArg _ (funext fun bound => ?_)
    cases bound <;> rfl
  | conditional => rcases forms with _ | ⟨_, _ | ⟨_, _ | ⟨_, _ | ⟨_, _⟩⟩⟩⟩ <;> rfl
  | lambda =>
    simp only [SpecialForm.apply, special, bind_assoc]
    rfl
  | conjunction => exact (meaning_junction ev scope _ _ forms).symm
  | disjunction => exact (meaning_junction ev scope _ _ forms).symm

theorem application_eq (head forms : Value) :
    Eval.application ev head forms scope = application head forms scope >>= meaning ev := by
  cases head with
  | symbol name =>
    simp only [Eval.application, application]
    split
    · rcases Operator.named? name with _ | form | op
      · simp only [bind_assoc]
        refine congrArg _ (funext fun found => ?_)
        rcases found with _ | w
        · rfl
        cases w with
        | closure c => exact (call_eq ev scope (.closure c) forms).symm
        | nil | integer | symbol | pair => rfl
      · simp only [special_eq, bind_assoc]
      · exact (call_eq ev scope (.primitive op) forms).symm
    · rfl
  | pair r =>
    simp only [Eval.application, application, bind_assoc]
    refine congrArg _ (funext fun form => ?_)
    split
    · simp only [bind_assoc, call_eq]
      rfl
    · simp only [bind_assoc, fail_bind]
  | nil | integer | closure => rfl

/-- An expression means what the move that starts its evaluation means. -/
theorem expression_eq (v : Value) :
    Eval.expression ev v scope = evaluate v scope >>= meaning ev := by
  cases v with
  | symbol name =>
    simp only [Eval.expression, evaluate]
    split
    · rfl
    · rw [bind_assoc]
      refine congrArg _ (funext fun found => ?_)
      cases found <;> rfl
  | pair r =>
    simp only [Eval.expression, evaluate, bind_assoc, application_eq]
  | nil | integer | closure => rfl

theorem apply_eq (callee : Callee) (args : List Value) :
    (Control.apply callee args).meaning ev = apply callee args >>= meaning ev := by
  cases callee with
  | primitive op =>
    simp only [apply, bind_assoc]
    exact (bind_pure _).symm
  | closure c =>
    simp only [apply, Control.meaning, Eval.call, bind_assoc]
    refine congrArg _ (funext fun closure => ?_)
    split
    · simp only [bind_assoc, pure_bind, meaning_body]
      rfl
    · rfl

theorem resume_eq (p : Pending) (v : Value) :
    p.meaning ev v = resume v p >>= meaning ev := by
  cases p with
  | operand callee scope values forms =>
    simp only [Pending.meaning, resume, pure_bind, meaning_operands, List.append_assoc,
      List.singleton_append]
  | body scope forms => exact (meaning_body ev scope v forms).symm
  | define scope name => rfl
  | assign scope name =>
    simp only [Pending.meaning, resume, bind_assoc]
    exact (bind_pure _).symm
  | branch scope consequent alternative =>
    simp only [Pending.meaning, resume]
    split
    · split
      · cases alternative <;> rfl
      · rfl
    · simp only [bind_assoc, fail_bind]
  | junction scope goesOn forms =>
    simp only [Pending.meaning, resume, pure_bind]
    split
    · exact (meaning_junction ev scope goesOn v forms).symm
    · rfl

end Move

/-! ## What machines perform -/

namespace Machine

/-- The machine can be carried on for at least so many steps. -/
def Lasts : Nat → Machine → Prop
  | 0, _ => True
  | n + 1, m => ∃ m', m.step = some m' ∧ Lasts n m'

theorem Lasts.pred : ∀ {n : Nat} {m : Machine}, Lasts (n + 1) m → Lasts n m
  | 0, _, _ => trivial
  | _ + 1, _, ⟨m', hm', h⟩ => ⟨m', hm', h.pred⟩

theorem lasts_of_step_self {m : Machine} (h : m.step = some m) : ∀ n, Lasts n m
  | 0 => trivial
  | n + 1 => ⟨m, h, lasts_of_step_self h n⟩

theorem Reaches.lasts {n : Nat} {m m' : Machine} (h : m.Reaches m') (hl : Lasts n m') :
    Lasts n m := by
  induction h using Relation.ReflTransGen.head_induction_on with
  | refl => exact hl
  | head hstep _ ih => exact Lasts.pred ⟨_, hstep, ih⟩

/-- A machine at its end does not last. -/
theorem Reaches.not_lasts {m m' : Machine} (h : m.Reaches m') (he : m'.Ended) :
    ∃ n, ¬ Lasts n m := by
  induction h using Relation.ReflTransGen.head_induction_on with
  | refl => exact ⟨1, fun ⟨_, hstep, _⟩ => by simp [Ended] at he; simp [he] at hstep⟩
  | head hstep _ ih =>
    obtain ⟨n, hn⟩ := ih
    exact ⟨n + 1, fun ⟨_, hstep', hl⟩ => hn (Option.some.inj (hstep.symm.trans hstep') ▸ hl)⟩

/-- Of the machines at their end, a machine reaches one only. -/
theorem Reaches.unique {m m₁ m₂ : Machine} (h₁ : m.Reaches m₁) (h₂ : m.Reaches m₂)
    (e₁ : m₁.Ended) (e₂ : m₂.Ended) : m₁ = m₂ := by
  have stays : ∀ {m m' : Machine}, m.Ended → m.Reaches m' → m' = m := by
    intro m m' he h
    rcases Relation.ReflTransGen.cases_head h with rfl | ⟨_, hstep, _⟩
    · rfl
    · simp [Ended.eq_1 _ ▸ he] at hstep
  -- There is one next step at most, so one of the two is on the way to the other.
  rcases Relation.ReflTransGen.total_of_right_unique
    (fun _ _ _ h h' => Option.some.inj (h.symm.trans h')) h₁ h₂ with h | h
  · exact (stays e₁ h).symm
  · exact stays e₂ h

/-- The machine comes to the end `o`, with `waiting` left to wait; or it can be
    carried on for at least `n` steps, if there is no such end. -/
def Performs (n : Nat) (m : Machine) (waiting : List Pending) : Outcome EvalError Value → Prop
  | .value v s => m.Reaches ⟨.value v, waiting, s⟩
  | .error e s => m.Reaches ⟨.error e, waiting, s⟩
  | .unfinished => m.Lasts n

variable {n : Nat} {m : Machine} {waiting : List Pending}

theorem Performs.head {m' : Machine} {o : Outcome EvalError Value} (hstep : m.step = some m')
    (h : m'.Performs n waiting o) : m.Performs (n + 1) waiting o := by
  cases o with
  | value v s => exact Relation.ReflTransGen.head hstep h
  | error e s => exact Relation.ReflTransGen.head hstep h
  | unfinished => exact ⟨m', hstep, h⟩

theorem Performs.pred {o : Outcome EvalError Value} (h : m.Performs (n + 1) waiting o) :
    m.Performs n waiting o := by
  cases o with
  | value v s => exact h
  | error e s => exact h
  | unfinished => exact Lasts.pred h

theorem Reaches.performs {m' : Machine} {o : Outcome EvalError Value} (h : m.Reaches m')
    (hp : m'.Performs n waiting o) : m.Performs n waiting o := by
  cases o with
  | value v s => exact Relation.ReflTransGen.trans h hp
  | error e s => exact Relation.ReflTransGen.trans h hp
  | unfinished => exact h.lasts hp

/-- The machine performs what the move stands for, whatever else waits. -/
def PerformsMove (n : Nat) (move : Move) : Prop :=
  ∀ waiting s, Performs n ⟨move.1, move.2 ++ waiting, s⟩ waiting
    ((move.meaning (Eval.evaluate n)).run s)

/-- A step performs what its moves stand for, if the machine performs that of
    all the moves it can come to. -/
theorem performs_follow {move : Eval Move} (hstep : m.step = some (m.follow move waiting))
    (h : (move.run m.store).Satisfies (fun move _ => PerformsMove n move) fun _ _ => True) :
    m.Performs (n + 1) waiting ((move >>= Move.meaning (Eval.evaluate n)).run m.store) := by
  rw [run_bind]
  rcases hmove : move.run m.store with ⟨⟨control, added⟩, s⟩ | ⟨e, s⟩ | _ <;> rw [hmove] at h
  -- With a move, the step leads to it, and the rest is what the machine performs
  -- from there. With an error, the step leads to that. With neither, it leads back
  -- to the same machine, which so can be carried on for ever.
  · exact Performs.head (by rw [hstep, follow, hmove]) (h waiting s)
  · exact Relation.ReflTransGen.single (by rw [hstep, follow, hmove])
  · exact lasts_of_step_self (by rw [hstep, follow, hmove]) _

/-- One computation after another: what waits is gone on with at a value, and
    given up at an error. -/
theorem Performs.bind {p : Pending} {c : Eval Value} {f : Value → Eval Value} {s : Store}
    (h : m.Performs n (p :: waiting) (c.run s))
    (hf : ∀ v s, Performs n ⟨.value v, p :: waiting, s⟩ waiting ((f v).run s)) :
    m.Performs n waiting ((c >>= f).run s) := by
  rw [run_bind]
  rcases hc : c.run s with ⟨v, s'⟩ | ⟨e, s'⟩ | _ <;> rw [hc] at h
  · exact Reaches.performs h (hf v s')
  · exact Relation.ReflTransGen.tail h rfl
  · exact h

/-- The machine performs what waits, if it performs the moves that this goes on
    with. -/
theorem performs_pending {p : Pending} {v : Value} {s : Store}
    (h : ((Move.resume v p).run s).Satisfies (fun move _ => PerformsMove n move)
      fun _ _ => True) :
    Performs n ⟨.value v, p :: waiting, s⟩ waiting ((p.meaning (Eval.evaluate n) v).run s) := by
  rw [Move.resume_eq]
  exact (performs_follow rfl h).pred

/-! ## Performing an evaluation -/

theorem performsMove_value (v : Value) : PerformsMove n (.value v, []) := fun _ _ => .refl

section Levels

/- The machine performs evaluations with respect to `n` levels. -/
variable (hev : ∀ v scope, PerformsMove n (.evaluate v scope, []))

include hev

theorem performsMove_body (scope : FrameRef) (forms : List Value) (last : Value) :
    PerformsMove n (Move.body scope last forms) := by
  induction forms generalizing last with
  | nil => exact performsMove_value last
  | cons form forms ih =>
    intro waiting s
    exact Performs.bind (hev form scope _ s) fun v s => performs_pending (ih v)

theorem performsMove_junction (scope : FrameRef) (goesOn : Value → Bool) (forms : List Value)
    (last : Value) : PerformsMove n (Move.junction scope goesOn last forms) := by
  induction forms generalizing last with
  | nil => exact performsMove_value last
  | cons form forms ih =>
    intro waiting s
    refine Performs.bind (hev form scope _ s) fun v s => performs_pending ?_
    change PerformsMove n (if goesOn v then _ else _)
    split
    · exact ih v
    · exact performsMove_value v

theorem performsMove_apply (callee : Callee) (args : List Value) :
    PerformsMove n (.apply callee args, []) := by
  intro waiting s
  change Performs n _ _ (((Control.apply callee args).meaning _).run s)
  rw [Move.apply_eq]
  refine (performs_follow rfl ?_).pred
  cases callee with
  | primitive op =>
    simp only [Move.apply, satisfies_bind]
    exact Outcome.satisfies_of_forall (fun v _ => performsMove_value v) (fun _ _ => trivial) _
  | closure c =>
    simp only [Move.apply, satisfies_bind, run_read, Outcome.satisfies_value]
    split
    · exact performsMove_body hev _ _ _
    · trivial

theorem performsMove_operands (callee : Callee) (scope : FrameRef) (forms values : List Value) :
    PerformsMove n (Move.operands callee scope values forms) := by
  induction forms generalizing values with
  | nil => exact performsMove_apply hev callee values
  | cons form forms ih =>
    intro waiting s
    exact Performs.bind (hev form scope _ s) fun v s => performs_pending (ih (values ++ [v]))

theorem performs_resume (p : Pending) (v : Value) (waiting : List Pending) (s : Store) :
    Performs n ⟨.value v, p :: waiting, s⟩ waiting ((p.meaning (Eval.evaluate n) v).run s) := by
  refine performs_pending ?_
  cases p with
  | operand callee scope values forms => exact performsMove_operands hev callee scope forms _
  | body scope forms => exact performsMove_body hev scope forms v
  | define scope name => exact performsMove_value _
  | assign scope name =>
    simp only [Move.resume, satisfies_bind]
    exact Outcome.satisfies_of_forall (fun v _ => performsMove_value v) (fun _ _ => trivial) _
  | branch scope consequent alternative =>
    simp only [Move.resume]
    split
    · split
      · cases alternative with
        | none => exact performsMove_value _
        | some alternative => exact hev alternative scope
      · exact hev consequent scope
    · simp
  | junction scope goesOn forms =>
    change PerformsMove n (if goesOn v then _ else _)
    split
    · exact performsMove_junction hev scope goesOn forms v
    · exact performsMove_value v

/-- The machine performs every move: its control, and then what waits, from the
    innermost outward. -/
theorem performsMove : ∀ move : Move, PerformsMove n move := by
  have outward : ∀ {m : Machine} {waiting : List Pending} {s : Store} (added : List Pending)
      (c : Eval Value), Performs n m (added ++ waiting) (c.run s) →
        Performs n m waiting
          ((added.foldl (fun c p => c >>= fun v => p.meaning (Eval.evaluate n) v) c).run s) := by
    intro m waiting s added
    -- On what waits, the innermost first: it is gone on with when there is a value.
    induction added with
    | nil => exact fun c h => h
    | cons p added ih =>
      exact fun c h => ih _ (Performs.bind h (performs_resume hev p · (added ++ waiting)))
  intro ⟨control, added⟩ waiting s
  refine outward added _ ?_
  cases control with
  | evaluate v scope => exact hev v scope _ s
  | apply callee args => exact performsMove_apply hev callee args _ s
  | value v => exact .refl
  | error e => exact .refl

end Levels

theorem performsMove_evaluate : ∀ n v scope, PerformsMove n (.evaluate v scope, [])
  | 0, _, _, _, _ => trivial
  | n + 1, v, scope, waiting, s => by
    -- One level down, all that the first step may lead to is performed.
    change Performs _ _ _ ((Eval.expression (Eval.evaluate n) v scope).run s)
    rw [Move.expression_eq]
    have hmove := performsMove (performsMove_evaluate n)
    exact performs_follow rfl (Outcome.satisfies_of_forall (fun move _ => hmove move)
      (fun _ _ => trivial) _)

/-! ## Agreement -/

/-- The machine performs the evaluation of every expression. -/
theorem performs_evaluate (n : Nat) (v : Value) (scope : FrameRef) (waiting : List Pending)
    (s : Store) :
    Performs n ⟨.evaluate v scope, waiting, s⟩ waiting ((Eval.evaluate n v scope).run s) :=
  performsMove_evaluate n v scope waiting s

/-- The machine performs every call of a closure. -/
theorem performs_call (n : Nat) (c : ClosureRef) (args : List Value) (waiting : List Pending)
    (s : Store) :
    Performs n ⟨.apply (.closure c) args, waiting, s⟩ waiting
      ((Eval.call (Eval.evaluate n) c args).run s) :=
  performsMove (performsMove_evaluate n) (.apply (.closure c) args, []) waiting s

variable {v w : Value} {scope : FrameRef} {s s' : Store} {e : EvalError}

/-- A machine that comes to an end with nothing waiting performs the end that
    evaluation comes to within enough levels. -/
theorem Reaches.evaluate_ends {m : Machine} (h : Reaches ⟨.evaluate v scope, [], s⟩ m)
    (he : m.Ended) : ∃ n, (∃ w, (Eval.evaluate n v scope).run s = .value w m.store ∧
        m = ⟨.value w, [], m.store⟩) ∨
      ∃ e, (Eval.evaluate n v scope).run s = .error e m.store ∧ m = ⟨.error e, [], m.store⟩ := by
  -- The machine does not last for some number of steps, so within as many levels
  -- the evaluation has an end.
  obtain ⟨n, hn⟩ := h.not_lasts he
  have hp := performs_evaluate n v scope [] s
  refine ⟨n, ?_⟩
  rcases ho : (Eval.evaluate n v scope).run s with ⟨w, t⟩ | ⟨e, t⟩ | _ <;> rw [ho] at hp
  · obtain rfl := h.unique hp he rfl
    exact .inl ⟨w, rfl, rfl⟩
  · obtain rfl := h.unique hp he rfl
    exact .inr ⟨e, rfl, rfl⟩
  · exact absurd hp hn

/-- The machine comes to a value just where evaluation does. -/
theorem reaches_value_iff :
    Reaches ⟨.evaluate v scope, [], s⟩ ⟨.value w, [], s'⟩ ↔
      ∃ n, (Eval.evaluate n v scope).run s = .value w s' := by
  constructor
  · intro h
    obtain ⟨n, ⟨u, hu, hm⟩ | ⟨e, _, hm⟩⟩ := h.evaluate_ends rfl
    · obtain rfl : w = u := by simpa using hm
      exact ⟨n, hu⟩
    · simp at hm
  · rintro ⟨n, hn⟩
    have hp := performs_evaluate n v scope [] s
    rwa [hn] at hp

/-- The machine comes to an error just where evaluation does. -/
theorem reaches_error_iff :
    Reaches ⟨.evaluate v scope, [], s⟩ ⟨.error e, [], s'⟩ ↔
      ∃ n, (Eval.evaluate n v scope).run s = .error e s' := by
  constructor
  · intro h
    obtain ⟨n, ⟨u, _, hm⟩ | ⟨e', he', hm⟩⟩ := h.evaluate_ends rfl
    · simp at hm
    · obtain rfl : e = e' := by simpa using hm
      exact ⟨n, he'⟩
  · rintro ⟨n, hn⟩
    have hp := performs_evaluate n v scope [] s
    rwa [hn] at hp

end Machine

end SmallScheme
