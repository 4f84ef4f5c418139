import SmallScheme.Proofs.Machine
import SmallScheme.Proofs.Outcome
import SmallScheme.Proofs.Store.Chain

/-!
# How evaluation starts

All that the start of an evaluation can come to (`Move.Start`): which expression
is evaluated next or which value there is already, what waits for it, and what
has become of the store. At this point the store can only have changed by a new
closure.

A start without an end is one that is `Move.Stuck`: it takes a list apart that
goes round, or prints a value without an end to say what is wrong with it.

What a step of the evaluation machine keeps is shown case by case for these
starts, and then holds of every expression (`start_evaluate`).
-/

namespace SmallScheme

open StoreM

namespace Eval

variable {s : Store}

/-- A proper list is taken apart, and the store stays as it is. Anything else is an error. -/
theorem properList_satisfies (what : String) (v : Value) : ((properList what v).run s).Satisfies
    (fun items t => t = s ∧ s.elements? v = some (items, .nil))
    fun _ t => t = s ∧ ∀ items, s.elements? v ≠ some (items, .nil) := by
  simp only [properList, satisfies_bind, satisfies_find]
  rintro ⟨items, tail⟩ h
  cases tail with
  | nil => exact ⟨rfl, h⟩
  | integer | symbol | pair | closure => exact ⟨rfl, fun _ h' => by cases h.symm.trans h'⟩

theorem elements?_eq_none_of_properList {what : String} {v : Value}
    (h : (properList what v).run s = .unfinished) : s.elements? v = none := by
  rw [properList, run_bind, run_find] at h
  rcases helements : s.elements? v with _ | ⟨items, tail⟩
  · rfl
  · rw [helements] at h
    cases tail <;> cases h

theorem parameterName_satisfies (v : Value) : ((parameterName v).run s).Satisfies
    (fun name t => t = s ∧ v = .symbol name) fun _ t => t = s ∧ ∀ name, v ≠ .symbol name := by
  cases v with
  | symbol => exact ⟨rfl, rfl⟩
  | nil | integer | pair | closure => simp [parameterName, render]

theorem mapM_parameterName_satisfies (items : List Value) :
    ((items.mapM parameterName).run s).Satisfies
      (fun names t => t = s ∧ items = names.map .symbol)
      fun _ t => t = s ∧ ∀ names : List String, items ≠ names.map .symbol := by
  induction items with
  | nil => exact ⟨rfl, rfl⟩
  | cons item items ih =>
    rw [List.mapM_cons]
    simp only [satisfies_bind, run_pure, Outcome.satisfies_value]
    refine (parameterName_satisfies item).imp ?_ ?_
    · rintro name _ ⟨rfl, rfl⟩
      refine ih.imp ?_ ?_
      · rintro names _ ⟨rfl, rfl⟩
        exact ⟨rfl, rfl⟩
      · rintro _ _ ⟨rfl, hne⟩
        refine ⟨rfl, fun names h => ?_⟩
        obtain ⟨_, names, -, -, hrest⟩ := List.map_eq_cons_iff.1 h.symm
        exact hne names hrest.symm
    · rintro _ _ ⟨rfl, hne⟩
      refine ⟨rfl, fun names h => ?_⟩
      obtain ⟨name, _, -, hfirst, -⟩ := List.map_eq_cons_iff.1 h.symm
      exact hne name hfirst.symm

/-- Parameters are a proper list of symbols. -/
theorem parameterNames_satisfies (params : Value) : ((parameterNames params).run s).Satisfies
    (fun names t => t = s ∧ s.elements? params = some (names.map .symbol, .nil))
    fun _ t => t = s ∧ ∀ names : List String,
      s.elements? params ≠ some (names.map .symbol, .nil) := by
  unfold parameterNames
  split
  · simp only [satisfies_bind, satisfies_find]
    rintro ⟨items, tail⟩ h
    cases tail with
    | nil =>
      refine (mapM_parameterName_satisfies items).imp ?_ ?_
      · rintro names _ ⟨rfl, rfl⟩
        exact ⟨rfl, h⟩
      · rintro _ _ ⟨rfl, hne⟩
        refine ⟨rfl, fun names h' => hne names ?_⟩
        cases h.symm.trans h'
        rfl
    | integer | symbol | pair | closure => exact ⟨rfl, fun _ h' => by cases h.symm.trans h'⟩
  · rename_i hlist
    exact ⟨rfl, fun _ h => hlist (Store.isListLike_of_elements? h)⟩

theorem render?_eq_none_of_parameterName {v : Value}
    (h : (parameterName v).run s = .unfinished) : s.render? v = none := by
  cases v with
  | symbol => cases h
  | nil | integer | closure => cases h
  | pair r =>
    simp only [parameterName, render, run_bind, run_find] at h
    rcases hshown : s.render? (.pair r) with _ | shown
    · rfl
    · rw [hshown] at h
      cases h

theorem exists_render?_eq_none_of_mapM {names : List Value}
    (h : (names.mapM parameterName).run s = .unfinished) :
    ∃ name ∈ names, s.render? name = none := by
  induction names with
  | nil => cases h
  | cons name names ih =>
    have hname := parameterName_satisfies (s := s) name
    rw [List.mapM_cons, run_bind] at h
    rcases ho : (parameterName name).run s with ⟨_, t⟩ | ⟨e, t⟩ | _ <;> rw [ho] at h hname
    · obtain ⟨rfl, -⟩ := hname
      simp only [run_bind] at h
      rcases hrest : (names.mapM parameterName).run t with ⟨_, t'⟩ | ⟨e, t'⟩ | _
      · rw [hrest] at h
        cases h
      · rw [hrest] at h
        cases h
      · obtain ⟨other, hmem, hnone⟩ := ih hrest
        exact ⟨other, List.mem_cons_of_mem _ hmem, hnone⟩
    · cases h
    · exact ⟨name, List.mem_cons_self, render?_eq_none_of_parameterName ho⟩

/-- A `lambda` form makes one closure. -/
theorem makeClosure_satisfies (scope : FrameRef) (parts : List Value) :
    ((makeClosure scope parts).run s).Satisfies
      (fun c t => ∃ params names body, parts = params :: body ∧ c = ⟨s.closures.size⟩ ∧
        t = (s.newClosure ⟨names, body, scope⟩).2) fun _ t => t = s := by
  rcases parts with _ | ⟨params, _ | ⟨form, body⟩⟩
  · rfl
  · rfl
  · simp only [makeClosure, satisfies_bind]
    refine (parameterNames_satisfies params).imp ?_ fun _ _ h => h.1
    rintro names _ ⟨rfl, -⟩
    exact ⟨params, names, form :: body, rfl, rfl, rfl⟩

/-- No closure is made only where a list of parameters goes round, or what stands
    for a parameter cannot be printed. -/
theorem of_makeClosure_eq_unfinished {scope : FrameRef} {parts : List Value}
    (h : (makeClosure scope parts).run s = .unfinished) :
    ∃ params body, parts = params :: body ∧ (s.elements? params = none ∨
      ∃ names, s.elements? params = some (names, .nil) ∧
        ∃ name ∈ names, s.render? name = none) := by
  rcases parts with _ | ⟨params, _ | ⟨form, body⟩⟩
  · cases h
  · cases h
  refine ⟨params, form :: body, rfl, ?_⟩
  have hnames : (parameterNames params).run s = .unfinished := by
    simp only [makeClosure, run_bind] at h
    rcases ho : (parameterNames params).run s with ⟨names, t⟩ | ⟨e, t⟩ | _
    · rw [ho] at h
      cases h
    · rw [ho] at h
      cases h
    · rfl
  unfold parameterNames at hnames
  split at hnames
  · simp only [run_bind, run_find] at hnames
    rcases helements : s.elements? params with _ | ⟨names, tail⟩
    · exact .inl rfl
    · rw [helements] at hnames
      cases tail with
      | nil => exact .inr ⟨names, rfl, exists_render?_eq_none_of_mapM hnames⟩
      | integer | symbol | pair | closure => cases hnames
  · cases hnames

/-- An assignment changes one binding, if it does not fail. -/
theorem assign_satisfies (scope : FrameRef) (name : String) (v : Value) :
    ((assign scope name v).run s).Satisfies
      (fun w t => w = .nil ∧ t = s.define scope name v) fun _ t => t = s := by
  unfold run assign Store.assign?
  split
  · rename_i t h
    obtain ⟨_, h⟩ := Option.ite_none_right_eq_some.1 h
    exact ⟨rfl, (Option.some.inj h).symm⟩
  · rfl

theorem target_satisfies (form : SpecialForm) (operands : List Value) :
    ((target form operands).run s).Satisfies
      (fun r t => t = s ∧ operands = [.symbol r.1, r.2])
      fun _ t => t = s ∧ ∀ name expression, operands ≠ [.symbol name, expression] := by
  unfold target
  split
  · exact ⟨rfl, rfl⟩
  · rename_i other expression hother
    simp only [render, satisfies_bind, satisfies_find]
    refine fun _ _ => ⟨rfl, fun name expression' h => hother name ?_⟩
    cases h
    rfl
  · rename_i hpair
    refine ⟨rfl, fun name expression h => hpair _ _ h⟩

theorem of_target_eq_unfinished {form : SpecialForm} {operands : List Value}
    (h : (target form operands).run s = .unfinished) :
    ∃ other expression, operands = [other, expression] ∧ s.render? other = none := by
  unfold target at h
  split at h
  · cases h
  · simp only [render, run_bind, run_find] at h
    rename_i other expression _
    refine ⟨other, expression, rfl, ?_⟩
    rcases hshown : s.render? other with _ | shown
    · rfl
    · rw [hshown] at h
      cases h
  · cases h

end Eval

namespace Move

/-- The pair is a form with these operands, and no quotation. -/
structure IsForm (s : Store) (r : PairRef) (forms : List Value) : Prop where
  not_quote : (s.pair r).car ≠ .symbol SpecialForm.quote.name
  operands : s.elements? (s.pair r).cdr = some (forms, .nil)

/-- The lists that the start of an evaluation takes apart: the operands of a form;
    for a `lambda` form, the parameters; and both for one in head position. -/
inductive TakesApart (s : Store) : Value → Value → Prop
  | operands (r : PairRef) : TakesApart s (.pair r) (s.pair r).cdr
  | parameters {r : PairRef} {params : Value} {body : List Value} :
      (s.pair r).car = .symbol SpecialForm.lambda.name →
      s.elements? (s.pair r).cdr = some (params :: body, .nil) → TakesApart s (.pair r) params
  | head {r q : PairRef} {w : Value} : (s.pair r).car = .pair q →
      (s.pair q).car = .symbol SpecialForm.lambda.name → TakesApart s (.pair q) w →
      TakesApart s (.pair r) w

/-- What is printed to say what is wrong with an expression: a pair in head
    position that is no `lambda` form, what stands in the place of a name to
    define or assign, or of a parameter. -/
inductive Shows (s : Store) : Value → Value → Prop
  | head {r q : PairRef} : (s.pair r).car = .pair q →
      (s.pair q).car ≠ .symbol SpecialForm.lambda.name → Shows s (.pair r) (.pair q)
  | target {r : PairRef} {form : SpecialForm} {other expression : Value} :
      form = .define ∨ form = .assign → (s.pair r).car = .symbol form.name →
      s.elements? (s.pair r).cdr = some ([other, expression], .nil) → Shows s (.pair r) other
  | parameter {r : PairRef} {params name : Value} {body names : List Value} :
      (s.pair r).car = .symbol SpecialForm.lambda.name →
      s.elements? (s.pair r).cdr = some (params :: body, .nil) →
      s.elements? params = some (names, .nil) → name ∈ names → Shows s (.pair r) name
  | inline {r q : PairRef} {w : Value} : (s.pair r).car = .pair q →
      (s.pair q).car = .symbol SpecialForm.lambda.name → Shows s (.pair q) w → Shows s (.pair r) w

/-- Why an evaluation may fail to start: a list goes round, or a value cannot be
    printed. -/
inductive Stuck (s : Store) (v : Value) : Prop
  | list {w : Value} : TakesApart s v w → s.elements? w = none → Stuck s v
  | shown {w : Value} : Shows s v w → s.render? w = none → Stuck s v

/-- How the evaluation of an expression in `scope` may start in the store `s`. -/
inductive Start (s : Store) (scope : FrameRef) : Value → Outcome EvalError Move → Prop
  | unfinished {v : Value} : Stuck s v → Start s scope v .unfinished
  | error {v : Value} (e : EvalError) : Start s scope v (.error e s)
  | self {v : Value} : (∀ r, v ≠ .pair r) → Start s scope v (.value (.value v, []) s)
  | bound {name : String} {w : Value} : s.lookup? scope name = some w →
      Start s scope (.symbol name) (.value (.value w, []) s)
  | quote {r : PairRef} {datum : Value} : (s.pair r).car = .symbol SpecialForm.quote.name →
      s.elements? (s.pair r).cdr = some ([datum], .nil) →
      Start s scope (.pair r) (.value (.value datum, []) s)
  | define {r : PairRef} {name : String} {form : Value} : IsForm s r [.symbol name, form] →
      Start s scope (.pair r) (.value (.evaluate form scope, [.define scope name]) s)
  | assign {r : PairRef} {name : String} {form : Value} : IsForm s r [.symbol name, form] →
      s.bindsLocally scope name →
      Start s scope (.pair r) (.value (.evaluate form scope, [.assign scope name]) s)
  | conditional {r : PairRef} {condition consequent : Value} {alternative : Option Value} :
      IsForm s r (condition :: consequent :: alternative.toList) →
      Start s scope (.pair r)
        (.value (.evaluate condition scope, [.branch scope consequent alternative]) s)
  | lambda {r : PairRef} {params : Value} {names : List String} {body : List Value} :
      IsForm s r (params :: body) →
      Start s scope (.pair r) (.value (.value (.closure ⟨s.closures.size⟩), [])
        (s.newClosure ⟨names, body, scope⟩).2)
  | junction {r : PairRef} {forms : List Value} (goesOn : Value → Bool) (last : Bool) :
      IsForm s r forms →
      Start s scope (.pair r) (.value (junction scope goesOn (.ofBool last) forms) s)
  | primitive {r : PairRef} {forms : List Value} (op : Primitive) : IsForm s r forms →
      Start s scope (.pair r) (.value (operands (.primitive op) scope [] forms) s)
  | closure {r : PairRef} {name : String} {c : ClosureRef} {forms : List Value} :
      IsForm s r forms → s.lookup? scope name = some (.closure c) →
      Start s scope (.pair r) (.value (operands (.closure c) scope [] forms) s)
  | inline {r q : PairRef} {params : Value} {names : List String} {body forms : List Value} :
      (s.pair r).car = .pair q → IsForm s q (params :: body) → IsForm s r forms →
      Start s scope (.pair r)
        (.value (operands (.closure ⟨s.closures.size⟩) scope [] forms)
          (s.newClosure ⟨names, body, scope⟩).2)
  | inlineError {r q : PairRef} {params : Value} {names : List String} {body : List Value}
      (e : EvalError) : (s.pair r).car = .pair q → IsForm s q (params :: body) →
      Start s scope (.pair r) (.error e (s.newClosure ⟨names, body, scope⟩).2)

section Start

variable {s : Store} {scope : FrameRef} {r : PairRef}

theorem start_render {v w : Value} {e : String → EvalError} (hw : Shows s v w) :
    Start s scope v ((Eval.render w >>= fun shown => (fail (e shown) : Eval Move)).run s) := by
  rw [run_bind, Eval.render, run_find]
  rcases hshown : s.render? w with _ | shown
  · exact .unfinished (.shown hw hshown)
  · exact .error _

/-- A start that takes a list apart first is judged by what follows, for every
    way in which that can go well. -/
theorem start_properList {what : String} {v w : Value} {f : List Value → Eval Move}
    (hw : TakesApart s v w)
    (h : ∀ items, s.elements? w = some (items, .nil) → Start s scope v ((f items).run s)) :
    Start s scope v ((Eval.properList what w >>= f).run s) := by
  have hlist := Eval.properList_satisfies (s := s) what w
  rw [run_bind]
  rcases ho : (Eval.properList what w).run s with ⟨items, t⟩ | ⟨e, t⟩ | _ <;> rw [ho] at hlist
  · obtain ⟨rfl, hitems⟩ := hlist
    exact h items hitems
  · obtain ⟨rfl, -⟩ := hlist
    exact .error e
  · exact .unfinished (.list hw (Eval.elements?_eq_none_of_properList ho))

theorem start_target {form : SpecialForm} {forms : List Value} {v : Value}
    {f : String × Value → Eval Move}
    (hshows : ∀ other expression, forms = [other, expression] → Shows s v other)
    (h : ∀ name expression, forms = [.symbol name, expression] →
      Start s scope v ((f (name, expression)).run s)) :
    Start s scope v ((Eval.target form forms >>= f).run s) := by
  have htarget := Eval.target_satisfies (s := s) form forms
  rw [run_bind]
  rcases ho : (Eval.target form forms).run s with ⟨⟨name, expression⟩, t⟩ | ⟨e, t⟩ | _ <;>
    rw [ho] at htarget
  · obtain ⟨rfl, hforms⟩ := htarget
    exact h name expression hforms
  · obtain ⟨rfl, -⟩ := htarget
    exact .error e
  · obtain ⟨other, expression, hforms, hnone⟩ := Eval.of_target_eq_unfinished ho
    exact .unfinished (.shown (hshows other expression hforms) hnone)

/-- A `lambda` form of which no closure is made. -/
theorem stuck_of_makeClosure {parts : List Value}
    (hcar : (s.pair r).car = .symbol SpecialForm.lambda.name)
    (hcdr : s.elements? (s.pair r).cdr = some (parts, .nil))
    (h : (Eval.makeClosure scope parts).run s = .unfinished) : Stuck s (.pair r) := by
  obtain ⟨params, body, rfl, hnone | ⟨names, hnames, name, hmem, hnone⟩⟩ :=
    Eval.of_makeClosure_eq_unfinished h
  · exact .list (.parameters hcar hcdr) hnone
  · exact .shown (.parameter hcar hcdr hnames hmem) hnone

theorem Stuck.inline {q : PairRef} (h : Stuck s (.pair q)) (hcar : (s.pair r).car = .pair q)
    (hlambda : (s.pair q).car = .symbol SpecialForm.lambda.name) : Stuck s (.pair r) := by
  cases h with
  | list hw hnone => exact .list (.head hcar hlambda hw) hnone
  | shown hw hnone => exact .shown (.inline hcar hlambda hw) hnone

theorem start_special {form : SpecialForm} {forms : List Value}
    (hcar : (s.pair r).car = .symbol form.name)
    (hcdr : s.elements? (s.pair r).cdr = some (forms, .nil)) :
    Start s scope (.pair r) ((special form scope forms).run s) := by
  have isForm : form ≠ .quote → IsForm s r forms := fun hne =>
    ⟨fun h => hne (by cases form <;> simp_all [SpecialForm.name]), hcdr⟩
  cases form with
  | quote =>
    rcases forms with _ | ⟨datum, _ | ⟨_, _⟩⟩
    · exact .error _
    · exact .quote hcar hcdr
    · exact .error _
  | define =>
    refine start_target (fun other expression h => .target (.inl rfl) hcar (h ▸ hcdr)) ?_
    rintro name form rfl
    exact .define (isForm (by decide))
  | assign =>
    refine start_target (fun other expression h => .target (.inr rfl) hcar (h ▸ hcdr)) ?_
    rintro name form rfl
    simp only [run_bind, run_read]
    split
    · exact .assign (isForm (by decide)) ‹_›
    · exact .error _
  | conditional =>
    rcases forms with _ | ⟨c, _ | ⟨t, _ | ⟨e, _ | ⟨_, _⟩⟩⟩⟩
    · exact .error _
    · exact .error _
    · exact .conditional (isForm (by decide))
    · exact .conditional (isForm (by decide))
    · exact .error _
  | lambda =>
    have hmake := Eval.makeClosure_satisfies (s := s) scope forms
    simp only [special, run_bind]
    rcases ho : (Eval.makeClosure scope forms).run s with ⟨c, t⟩ | ⟨e, t⟩ | _ <;> rw [ho] at hmake
    · obtain ⟨params, names, body, rfl, rfl, rfl⟩ := hmake
      exact .lambda (isForm (by decide))
    · obtain rfl := hmake
      exact .error e
    · exact .unfinished (stuck_of_makeClosure hcar hcdr ho)
  | conjunction => exact .junction _ true (isForm (by decide))
  | disjunction => exact .junction _ false (isForm (by decide))

theorem start_call {callee : Callee}
    (h : ∀ items, s.elements? (s.pair r).cdr = some (items, .nil) →
      Start s scope (.pair r) (.value (operands callee scope [] items) s)) :
    Start s scope (.pair r) ((call callee (s.pair r).cdr scope).run s) :=
  start_properList (.operands r) h

/-- No primitive is a quotation. -/
theorem isForm_of_primitive {op : Primitive} {forms : List Value}
    (hcar : (s.pair r).car = .symbol op.name)
    (hcdr : s.elements? (s.pair r).cdr = some (forms, .nil)) : IsForm s r forms := by
  refine ⟨fun h => ?_, hcdr⟩
  rw [hcar] at h
  cases op <;> simp [Primitive.name, SpecialForm.name] at h

/-- A name without a meaning as an operator is not that of a quotation. -/
theorem isForm_of_named?_eq_none {name : String} {forms : List Value}
    (hname : Operator.named? name = none) (hcar : (s.pair r).car = .symbol name)
    (hcdr : s.elements? (s.pair r).cdr = some (forms, .nil)) : IsForm s r forms := by
  refine ⟨fun h => ?_, hcdr⟩
  obtain rfl : name = SpecialForm.quote.name := by simpa using hcar.symm.trans h
  exact absurd hname (by decide)

theorem isForm_of_pair {q : PairRef} {forms : List Value} (hcar : (s.pair r).car = .pair q)
    (hcdr : s.elements? (s.pair r).cdr = some (forms, .nil)) : IsForm s r forms :=
  ⟨fun h => (nomatch hcar.symm.trans h), hcdr⟩

theorem isForm_of_lambda {forms : List Value}
    (hcar : (s.pair r).car = .symbol SpecialForm.lambda.name)
    (hcdr : s.elements? (s.pair r).cdr = some (forms, .nil)) : IsForm s r forms :=
  ⟨fun h => by simp [hcar, SpecialForm.name] at h, hcdr⟩

/-- The call of the closure that a `lambda` form in head position makes. -/
theorem start_inline {q : PairRef} (hcar : (s.pair r).car = .pair q)
    (hlambda : (s.pair q).car = .symbol SpecialForm.lambda.name) :
    Start s scope (.pair r) ((do
      let parts ← Eval.properList SpecialForm.lambda.name (s.pair q).cdr
      let c ← Eval.makeClosure scope parts
      call (.closure c) (s.pair r).cdr scope).run s) := by
  refine start_properList (.head hcar hlambda (.operands q)) fun parts hparts => ?_
  have hmake := Eval.makeClosure_satisfies (s := s) scope parts
  simp only [run_bind]
  rcases ho : (Eval.makeClosure scope parts).run s with ⟨c, t⟩ | ⟨e, t⟩ | _ <;> rw [ho] at hmake
  · obtain ⟨params, names, body, rfl, rfl, rfl⟩ := hmake
    have hform := isForm_of_lambda hlambda hparts
    -- The operands are taken apart in the store that has the closure already.
    have hlist := Eval.properList_satisfies (s := (s.newClosure ⟨names, body, scope⟩).2)
      "argument list" (s.pair r).cdr
    simp only [call, run_bind]
    rcases ho : (Eval.properList "argument list" (s.pair r).cdr).run
      (s.newClosure ⟨names, body, scope⟩).2 with ⟨forms, t⟩ | ⟨e, t⟩ | _ <;> rw [ho] at hlist
    · obtain ⟨rfl, hforms⟩ := hlist
      have hforms' : s.elements? (s.pair r).cdr = some (forms, .nil) :=
        (Store.elements?_congr (by rfl) _).trans hforms
      exact .inline hcar hform (isForm_of_pair hcar hforms')
    · obtain ⟨rfl, -⟩ := hlist
      exact .inlineError e hcar hform
    · have hnone := Eval.elements?_eq_none_of_properList ho
      exact .unfinished (.list (.operands r) ((Store.elements?_congr (by rfl) _).trans hnone))
  · obtain rfl := hmake
    exact .error e
  · exact .unfinished ((stuck_of_makeClosure hlambda hparts ho).inline hcar hlambda)

theorem start_application :
    Start s scope (.pair r) ((application (s.pair r).car (s.pair r).cdr scope).run s) := by
  rcases hcar : (s.pair r).car with _ | n | name | q | c
  · exact .error _
  · exact .error _
  · -- A name is that of an operator, or else of a closure that is bound to it.
    simp only [application]
    split
    · rcases hname : Operator.named? name with _ | form | op
      · simp only [run_bind, run_read]
        rcases hfound : s.lookup? scope name with _ | w
        · exact .error _
        rcases w with _ | _ | _ | _ | c
        · exact .error _
        · exact .error _
        · exact .error _
        · exact .error _
        · exact start_call fun items hitems =>
            .closure (isForm_of_named?_eq_none hname hcar hitems) hfound
      · obtain rfl := Operator.name_of_named? hname
        exact start_properList (.operands r) fun items hitems => start_special hcar hitems
      · obtain rfl := Operator.name_of_named? hname
        exact start_call fun items hitems => .primitive op (isForm_of_primitive hcar hitems)
    · exact .error _
  · -- A pair can be called only if it is a `lambda` form.
    simp only [application, run_bind, run_read]
    split
    · exact start_inline hcar ‹_›
    · exact start_render (.head hcar ‹_›)
  · exact .error _

end Start

/-- The evaluation of every expression starts in one of these ways. -/
theorem start_evaluate (v : Value) (scope : FrameRef) (s : Store) :
    Start s scope v ((evaluate v scope).run s) := by
  cases v with
  | nil => exact .error _
  | integer | closure => exact .self nofun
  | symbol name =>
    simp only [evaluate]
    split
    · exact .self nofun
    · rw [run_bind, run_read]
      rcases hfound : s.lookup? scope name with _ | w
      · exact .error _
      · exact .bound hfound
  | pair r => exact start_application

end Move

end SmallScheme
