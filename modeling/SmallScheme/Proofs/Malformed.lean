import SmallScheme.Proofs.Machine.Adequacy
import SmallScheme.Proofs.Machine.Start
import SmallScheme.Proofs.Store.Cycle

/-!
# Malformed forms

A form fails before anything in it is evaluated if there is something wrong with its
shape (`Eval.Malformed`): with the head, the list of operands, or what a special form finds
there. It fails in the same way whatever evaluation is used for its operands, and leaves
all pairs and frames as they were (`Eval.malformed_fails`). And a form fails at its start
only if it is malformed (`Eval.start_fails_iff`).

One thing else can happen: a list that is taken apart goes round, or a value shown by the
error has no end (`Move.Stuck`). In code that is finite there is neither
(`Move.not_stuck_of_acyclic`).

The functions that look at the shape of a form each decide one thing. With a result, this
is so; with an error, it is not, and the store is as it was.
-/

namespace SmallScheme

open StoreM

/-- The operands that a special form accepts in a scope. -/
def SpecialForm.Accepts (s : Store) (scope : FrameRef) (operands : List Value) :
    SpecialForm → Prop
  | .quote => operands.length = 1
  | .define => ∃ name expression, operands = [.symbol name, expression]
  | .assign => ∃ name expression, operands = [.symbol name, expression] ∧
      s.bindsLocally scope name
  | .conditional => operands.length = 2 ∨ operands.length = 3
  | .lambda => ∃ (params : Value) (names : List String) (body : List Value),
      operands = params :: body ∧ s.elements? params = some (names.map .symbol, .nil) ∧ body ≠ []
  | .conjunction | .disjunction => True

namespace Eval

/-- What is wrong with a form in a scope. -/
inductive Malformed (s : Store) (scope : FrameRef) (form : Pair) : Prop
  /-- The head is neither a symbol nor a `lambda` form. -/
  | head : (∀ name, form.car ≠ .symbol name) →
      (∀ q, form.car = .pair q → (s.pair q).car ≠ .symbol SpecialForm.lambda.name) →
      Malformed s scope form
  /-- The head is a symbol that is no operator and does not mean a closure. -/
  | name {name : String} : form.car = .symbol name → Operator.named? name = none →
      (∀ c, s.lookup? scope name ≠ some (.closure c)) → Malformed s scope form
  /-- The operands are no proper list. -/
  | operands : (∀ items, s.elements? form.cdr ≠ some (items, .nil)) → Malformed s scope form
  /-- The head is a special form, which does not accept the operands. -/
  | special {special : SpecialForm} {items : List Value} : form.car = .symbol special.name →
      s.elements? form.cdr = some (items, .nil) → ¬special.Accepts s scope items →
      Malformed s scope form
  /-- The head is a `lambda` form of which no closure can be made. -/
  | inline {q : PairRef} : form.car = .pair q →
      (s.pair q).car = .symbol SpecialForm.lambda.name →
      (∀ parts, s.elements? (s.pair q).cdr = some (parts, .nil) →
        ¬SpecialForm.lambda.Accepts s scope parts) → Malformed s scope form

/-- What has to be so of a form for its first operand to be evaluated. -/
inductive WellFormed (s : Store) (scope : FrameRef) (form : Pair) : Prop
  /-- A special form that accepts its operands. -/
  | special {special : SpecialForm} {items : List Value} : form.car = .symbol special.name →
      s.elements? form.cdr = some (items, .nil) → special.Accepts s scope items →
      WellFormed s scope form
  /-- A primitive, with any operands. -/
  | primitive {op : Primitive} {items : List Value} : form.car = .symbol op.name →
      s.elements? form.cdr = some (items, .nil) → WellFormed s scope form
  /-- A name that means a closure, with any operands. -/
  | closure {name : String} {c : ClosureRef} {items : List Value} : form.car = .symbol name →
      Operator.named? name = none → s.lookup? scope name = some (.closure c) →
      s.elements? form.cdr = some (items, .nil) → WellFormed s scope form
  /-- A `lambda` form that makes a closure, with any operands. -/
  | inline {q : PairRef} {parts items : List Value} : form.car = .pair q →
      (s.pair q).car = .symbol SpecialForm.lambda.name →
      s.elements? (s.pair q).cdr = some (parts, .nil) →
      SpecialForm.lambda.Accepts s scope parts →
      s.elements? form.cdr = some (items, .nil) → WellFormed s scope form

variable {s : Store} {scope : FrameRef} {form : Pair}

/-- Nothing is wrong with a well-formed form. -/
theorem Malformed.not_wellFormed (h : Malformed s scope form) : ¬WellFormed s scope form := by
  have hsame : ∀ op op' : Operator, form.car = .symbol op.name → form.car = .symbol op'.name →
      op = op' := fun _ _ hop hop' =>
    Operator.name_injective (Value.symbol.inj (hop.symm.trans hop'))
  have hother : ∀ (op : Operator) {name : String}, form.car = .symbol op.name →
      form.car = .symbol name → Operator.named? name ≠ none := fun _ _ hop hname hnone => by
    rw [← Value.symbol.inj (hop.symm.trans hname), Operator.named?_name] at hnone
    cases hnone
  intro hw
  cases h with
  | head hsymbol hpair =>
    cases hw with
    | special hcar | primitive hcar | closure hcar => exact hsymbol _ hcar
    | inline hcar hlambda => exact hpair _ hcar hlambda
  | name hcar hnone hlookup =>
    cases hw with
    | @special special _ hcar' => exact hother (.special special) hcar' hcar hnone
    | @primitive op _ hcar' => exact hother (.primitive op) hcar' hcar hnone
    | closure hcar' _ hc =>
      cases hcar.symm.trans hcar'
      exact hlookup _ hc
    | inline hcar' => cases hcar.symm.trans hcar'
  | operands hitems =>
    cases hw with
    | special _ h | primitive _ h | closure _ _ _ h | inline _ _ _ _ h => exact hitems _ h
  | @special special items hcar hitems haccepts =>
    cases hw with
    | @special special' _ hcar' hitems' haccepts' =>
      cases hsame (.special special) (.special special') hcar hcar'
      cases hitems.symm.trans hitems'
      exact haccepts haccepts'
    | @primitive op _ hcar' =>
      cases hsame (.special special) (.primitive op) hcar hcar'
    | closure hcar' hnone => exact hother (.special special) hcar hcar' hnone
    | inline hcar' => cases hcar.symm.trans hcar'
  | inline hcar hlambda hparts =>
    cases hw with
    | special hcar' | primitive hcar' | closure hcar' => cases hcar.symm.trans hcar'
    | inline hcar' _ hparts' haccepts =>
      cases hcar.symm.trans hcar'
      exact hparts _ hparts' haccepts

/-! ## What is decided -/

theorem makeClosure_decides (parts : List Value) : ((makeClosure scope parts).run s).Satisfies
    (fun _ t => SpecialForm.lambda.Accepts s scope parts ∧ t.pairs = s.pairs ∧
      t.frames = s.frames)
    fun _ t => t = s ∧ ¬SpecialForm.lambda.Accepts s scope parts := by
  rcases parts with _ | ⟨params, _ | ⟨first, body⟩⟩
  · refine ⟨rfl, ?_⟩
    rintro ⟨_, _, _, h, -⟩
    cases h
  · refine ⟨rfl, ?_⟩
    rintro ⟨_, _, _, h, -, hbody⟩
    cases h
    exact hbody rfl
  · simp only [makeClosure, satisfies_bind]
    refine (parameterNames_satisfies params).imp ?_ ?_
    · rintro names _ ⟨rfl, hnames⟩
      exact ⟨⟨params, names, first :: body, rfl, hnames, List.cons_ne_nil _ _⟩, rfl, rfl⟩
    · rintro _ _ ⟨rfl, hne⟩
      refine ⟨rfl, ?_⟩
      rintro ⟨_, names, _, h, hnames, -⟩
      cases h
      exact hne names hnames

end Eval

namespace Move

open Eval

variable {s : Store} {scope : FrameRef}

theorem special_decides (form : SpecialForm) (operands : List Value) :
    ((special form scope operands).run s).Satisfies
      (fun _ _ => form.Accepts s scope operands)
      fun _ t => ¬form.Accepts s scope operands ∧ t = s := by
  cases form with
  | quote => rcases operands with _ | ⟨_, _ | ⟨_, _⟩⟩ <;> simp [special, SpecialForm.Accepts]
  | define =>
    simp only [special, satisfies_bind]
    refine (target_satisfies .define operands).imp ?_ ?_
    · rintro ⟨name, expression⟩ _ ⟨rfl, rfl⟩
      exact ⟨name, expression, rfl⟩
    · rintro _ _ ⟨rfl, hne⟩
      refine ⟨?_, rfl⟩
      rintro ⟨name, expression, h⟩
      exact hne name expression h
  | assign =>
    simp only [special, satisfies_bind]
    refine (target_satisfies .assign operands).imp ?_ ?_
    · rintro ⟨name, expression⟩ u ⟨rfl, rfl⟩
      rw [run_read, Outcome.satisfies_value]
      split
      · exact ⟨name, expression, rfl, ‹_›⟩
      · refine ⟨?_, rfl⟩
        rintro ⟨_, _, h, hbound⟩
        cases h
        exact absurd hbound ‹_›
    · rintro _ _ ⟨rfl, hne⟩
      refine ⟨?_, rfl⟩
      rintro ⟨name, expression, h, -⟩
      exact hne name expression h
  | conditional =>
    rcases operands with _ | ⟨_, _ | ⟨_, _ | ⟨_, _ | ⟨_, _⟩⟩⟩⟩ <;>
      simp [special, SpecialForm.Accepts]
  | lambda =>
    simp only [special, satisfies_bind]
    exact (makeClosure_decides operands).imp (fun _ _ h => h.1) fun _ _ h => h.symm
  | conjunction | disjunction => exact trivial

/-- Of the form, this finds out whether it is well-formed. If it fails, something is wrong
    with the form, and no pair or frame is changed or made. -/
abbrev Judges (move : Eval Move) (s : Store) (scope : FrameRef) (form : Pair) : Prop :=
  (move.run s).Satisfies (fun _ _ => WellFormed s scope form)
    fun _ t => Malformed s scope form ∧ t.pairs = s.pairs ∧ t.frames = s.frames

section Judges

variable {head operands : Value}

theorem judges_special (special : SpecialForm) :
    Judges (properList special.name operands >>= Move.special special scope) s scope
      ⟨.symbol special.name, operands⟩ := by
  simp only [Judges, satisfies_bind]
  refine (properList_satisfies _ _).imp ?_ ?_
  · rintro items _ ⟨rfl, hitems⟩
    refine (special_decides special items).imp ?_ ?_
    · exact fun _ _ haccepts => .special rfl hitems haccepts
    · rintro _ _ ⟨hno, rfl⟩
      exact ⟨.special rfl hitems hno, rfl, rfl⟩
  · rintro _ _ ⟨rfl, hne⟩
    exact ⟨.operands hne, rfl, rfl⟩

/-- The operands of a call are looked at last, and nothing else can be wrong then. -/
theorem judges_call {t : Store} (callee : Callee) (hpairs : t.pairs = s.pairs)
    (hframes : t.frames = s.frames)
    (h : ∀ items, s.elements? operands = some (items, .nil) →
      WellFormed s scope ⟨head, operands⟩) :
    ((call callee operands scope).run t).Satisfies
      (fun _ _ => WellFormed s scope ⟨head, operands⟩)
      fun _ u => Malformed s scope ⟨head, operands⟩ ∧ u.pairs = s.pairs ∧
        u.frames = s.frames := by
  have hsame := Store.elements?_congr hpairs operands
  simp only [call, satisfies_bind]
  refine (properList_satisfies _ operands).imp ?_ ?_
  · rintro items _ ⟨rfl, hitems⟩
    exact h items (hsame ▸ hitems)
  · rintro _ _ ⟨rfl, hne⟩
    exact ⟨.operands (hsame ▸ hne), hpairs, hframes⟩

/-- A symbol is the name of an operator, or has to mean a closure. -/
theorem judges_symbol (name : String) :
    Judges (application (.symbol name) operands scope) s scope ⟨.symbol name, operands⟩ := by
  simp only [application]
  split
  · rcases hname : Operator.named? name with _ | special | op
    · simp only [Judges, satisfies_bind, run_read, Outcome.satisfies_value]
      split
      · rename_i c hc
        exact judges_call (.closure c) rfl rfl fun _ hitems => .closure rfl hname hc hitems
      · rename_i hno
        exact ⟨.name rfl hname hno, rfl, rfl⟩
    · obtain rfl := Operator.name_of_named? hname
      exact judges_special special
    · obtain rfl := Operator.name_of_named? hname
      exact judges_call (.primitive op) rfl rfl fun _ hitems => .primitive rfl hitems
  · rename_i hlist
    exact ⟨.operands fun _ h => hlist (Store.isListLike_of_elements? h), rfl, rfl⟩

/-- A pair has to be a `lambda` form of which a closure can be made. -/
theorem judges_pair (q : PairRef) :
    Judges (application (.pair q) operands scope) s scope ⟨.pair q, operands⟩ := by
  simp only [Judges, application, satisfies_bind, run_read, Outcome.satisfies_value]
  split
  · rename_i hlambda
    simp only [satisfies_bind]
    refine (properList_satisfies _ _).imp ?_ ?_
    · rintro parts _ ⟨rfl, hparts⟩
      refine (makeClosure_decides parts).imp ?_ ?_
      · -- The operands are looked at with the closure made already.
        rintro c _ ⟨haccepts, hpairs, hframes⟩
        exact judges_call (.closure c) hpairs hframes fun _ hitems =>
          .inline rfl hlambda hparts haccepts hitems
      · rintro _ _ ⟨rfl, hno⟩
        refine ⟨.inline rfl hlambda fun parts' hparts' => ?_, rfl, rfl⟩
        cases hparts.symm.trans hparts'
        exact hno
    · rintro _ _ ⟨rfl, hne⟩
      exact ⟨.inline rfl hlambda fun parts hparts => absurd hparts (hne parts), rfl, rfl⟩
  · rename_i hlambda
    simp only [satisfies_bind, render, satisfies_find]
    refine fun _ _ => ⟨.head (by simp) fun q' hq' => ?_, rfl, rfl⟩
    cases hq'
    exact hlambda

theorem judges_evaluate (r : PairRef) :
    Judges (Move.evaluate (.pair r) scope) s scope (s.pair r) := by
  change Judges (application (s.pair r).car (s.pair r).cdr scope) s scope
    ⟨(s.pair r).car, (s.pair r).cdr⟩
  cases (s.pair r).car with
  | symbol name => exact judges_symbol name
  | pair q => exact judges_pair q
  | nil | integer | closure => exact ⟨.head (by simp) (by simp), rfl, rfl⟩

end Judges

/-! ## Finite code -/

theorem TakesApart.reaches {v w : Value} (h : TakesApart s v w) : s.Reaches v w := by
  induction h with
  | operands r => exact Store.reaches_cdr r
  | parameters _ hparts =>
    exact (Store.reaches_cdr _).trans (Store.reaches_of_elements? hparts _ List.mem_cons_self)
  | @head r q w hcar _ _ ih => exact (hcar ▸ Store.reaches_car r : s.Reaches _ (.pair q)).trans ih

theorem Shows.reaches {v w : Value} (h : Shows s v w) : s.Reaches v w := by
  induction h with
  | @head r q hcar => exact hcar ▸ Store.reaches_car r
  | target _ _ hoperands =>
    exact (Store.reaches_cdr _).trans (Store.reaches_of_elements? hoperands _ List.mem_cons_self)
  | parameter _ hparts hnames hname =>
    exact (Store.reaches_cdr _).trans ((Store.reaches_of_elements? hparts _
      List.mem_cons_self).trans (Store.reaches_of_elements? hnames _ hname))
  | @inline r q w hcar _ _ ih => exact (hcar ▸ Store.reaches_car r : s.Reaches _ (.pair q)).trans ih

/-- Finite code is taken apart and printed. -/
theorem not_stuck_of_acyclic {v : Value} (h : s.Acyclic v) : ¬Stuck s v := by
  have hends : ∀ w, s.Reaches v w → s.render? w ≠ none ∧ s.elements? w ≠ none := fun w hw => by
    obtain ⟨hrender, -, -, helements⟩ := (h.of_reaches hw).ends
    exact ⟨Option.isSome_iff_ne_none.1 hrender, Option.isSome_iff_ne_none.1 helements⟩
  intro hstuck
  cases hstuck with
  | list hw hnone => exact (hends _ hw.reaches).2 hnone
  | shown hw hnone => exact (hends _ hw.reaches).1 hnone

end Move

namespace Eval

variable {s : Store} {scope : FrameRef} {r : PairRef}

/-- A form that can be taken apart fails at its start just if it is malformed. -/
theorem start_fails_iff (hstuck : ¬Move.Stuck s (.pair r)) :
    (∃ e t, (Move.evaluate (.pair r) scope).run s = .error e t) ↔
      Malformed s scope (s.pair r) := by
  have hstart := Move.start_evaluate (.pair r) scope s
  have hjudges : Move.Judges (Move.evaluate (.pair r) scope) s scope (s.pair r) :=
    Move.judges_evaluate r
  rw [Move.Judges] at hjudges
  rcases ho : (Move.evaluate (.pair r) scope).run s with ⟨move, t⟩ | ⟨e, t⟩ | _ <;>
    rw [ho] at hstart hjudges
  · refine iff_of_false ?_ fun h => h.not_wellFormed hjudges
    rintro ⟨_, _, h⟩
    cases h
  · exact iff_of_true ⟨e, t, rfl⟩ hjudges.1
  · cases hstart with
    | unfinished h => exact absurd h hstuck

/-- In a scope, a malformed form has an error, whatever is used to evaluate the expressions
    in it, so none of them is evaluated. The store has the same pairs and the same frames as
    before. All this is so of any form of finite code, and of any other that can be taken
    apart and shown as far as it is looked at. -/
theorem malformed_fails (h : Malformed s scope (s.pair r)) :
    (s.Acyclic (.pair r) → ¬Move.Stuck s (.pair r)) ∧
    (¬Move.Stuck s (.pair r) → ∃ e t,
      (∀ ev, (expression ev (.pair r) scope).run s = .error e t) ∧
      (∀ n, (evaluate (n + 1) (.pair r) scope).run s = .error e t) ∧
      t.pairs = s.pairs ∧ t.frames = s.frames) := by
  refine ⟨Move.not_stuck_of_acyclic, fun hstuck => ?_⟩
  obtain ⟨e, t, hfails⟩ := (start_fails_iff hstuck).2 h
  have hjudges : Move.Judges (Move.evaluate (.pair r) scope) s scope (s.pair r) :=
    Move.judges_evaluate r
  rw [Move.Judges, hfails] at hjudges
  have hany : ∀ ev, (expression ev (.pair r) scope).run s = .error e t := fun ev => by
    rw [Move.expression_eq, run_bind, hfails]
  exact ⟨e, t, hany, fun n => hany (evaluate n), hjudges.2⟩

/-- The conditional `(if (set! x 1))` has no branches. It fails, and `x` is not assigned. -/
theorem malformed_fails_if :
    let s : Store := ⟨#[⟨.symbol "if", .pair ⟨1⟩⟩, ⟨.pair ⟨2⟩, .nil⟩,
      ⟨.symbol "set!", .pair ⟨3⟩⟩, ⟨.symbol "x", .pair ⟨4⟩⟩, ⟨.integer .one, .nil⟩], #[],
      #[⟨none, [("x", .nil)]⟩]⟩
    Malformed s ⟨0⟩ (s.pair ⟨0⟩) ∧ s.Acyclic (.pair ⟨0⟩) ∧ ¬Move.Stuck s (.pair ⟨0⟩) ∧
    ∃ e t, (∀ ev, (expression ev (.pair ⟨0⟩) ⟨0⟩).run s = .error e t) ∧
      (∀ n, (evaluate (n + 1) (.pair ⟨0⟩) ⟨0⟩).run s = .error e t) ∧
      t.pairs = s.pairs ∧ t.frames = s.frames := by
  intro s
  have hmalformed : Malformed s ⟨0⟩ (s.pair ⟨0⟩) :=
    @Malformed.special s ⟨0⟩ _ .conditional [.pair ⟨2⟩] rfl rfl (by simp [SpecialForm.Accepts])
  have hset : s.Unfolds (.pair ⟨2⟩) _ :=
    .pair (.symbol "set!") (.pair (.symbol "x") (.pair (.integer .one) .nil))
  have hform : s.Unfolds (.pair ⟨0⟩) _ := .pair (.symbol "if") (.pair hset .nil)
  obtain ⟨hstuck, hfails⟩ := malformed_fails hmalformed
  exact ⟨hmalformed, hform.acyclic, hstuck hform.acyclic, hfails (hstuck hform.acyclic)⟩

end Eval

end SmallScheme
