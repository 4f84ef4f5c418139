import SmallScheme.Proofs.Hiding
import SmallScheme.Proofs.World.Evaluate

/-!
# Evaluation does not use a name that does not occur

Primitives do not look at names at all, and what they give is made of what they are
given, or is an integer or a truth value (`Primitive.hides_apply`). Evaluation looks up,
defines and assigns the names that occur in expressions, and binds those that occur in
lists of parameters. So a name that occurs in none of them makes no difference, be it
bound or not (`Eval.hides_evaluate`), if it is no truth value.

One lemma for each part of the evaluator says so, given that it is so for the evaluation
of what is inside (`Evaluator.Hides`); evaluation itself follows by induction on
the number of levels.
-/

namespace SmallScheme

open StoreM

variable {name : String} {live : Place → Prop} {v w : Value} {vs : List Value}

/-! ## Primitives -/

namespace Primitive

variable {op : Primitive} {α : Type} {P : α → Prop}

theorem hides_unary {f : Value → Eval Value}
    (hf : ∀ v, v.Avoids name live → (f v).Hides name live (Value.Avoids name live))
    (h : ∀ v ∈ vs, v.Avoids name live) :
    (unary op f vs).Hides name live (Value.Avoids name live) := by
  rcases vs with _ | ⟨v, _ | ⟨w, vs⟩⟩
  · exact hides_fail _
  · exact hf v (h v List.mem_cons_self)
  · exact hides_fail _

theorem hides_binary {f : Value → Value → Eval Value}
    (hf : ∀ v w, v.Avoids name live → w.Avoids name live →
      (f v w).Hides name live (Value.Avoids name live))
    (h : ∀ v ∈ vs, v.Avoids name live) :
    (binary op f vs).Hides name live (Value.Avoids name live) := by
  rcases vs with _ | ⟨v, _ | ⟨w, _ | ⟨u, vs⟩⟩⟩
  · exact hides_fail _
  · exact hides_fail _
  · exact hf v w (h v List.mem_cons_self) (h w (List.mem_cons_of_mem _ List.mem_cons_self))
  · exact hides_fail _

theorem hides_predicate (hname : (Value.symbol name).isBoolean = false) (p : Value → Bool)
    (h : ∀ v ∈ vs, v.Avoids name live) :
    (predicate op p vs).Hides name live (Value.Avoids name live) :=
  hides_unary (fun v _ => hides_pure (Value.avoids_ofBool hname (p v))) h

theorem hides_pairOf (h : v.Avoids name live) :
    (pairOf op v).Hides name live fun r => live (.pair r) := by
  cases v with
  | pair r => exact hides_pure (Value.avoids_pair_iff.1 h)
  | nil | integer | symbol | closure => exact hides_fail _

theorem hides_indexOf : (indexOf op v).Hides name live fun _ => True := by
  refine hides_bind (P := fun _ => True) (hides_ofExcept fun _ _ => trivial) fun n _ => ?_
  split
  · exact hides_fail _
  · exact hides_pure trivial

theorem hides_dropTo (h : v.Avoids name live) (k : Nat) (index : Fixnum) :
    (dropTo op v k index).Hides name live (Value.Avoids name live) := by
  refine hides_bind (P := fun rest => ∀ w, rest = .ok w → w.Avoids name live)
    (hides_read fun s hs => ⟨Store.walk_without k v, fun w hw => ?_⟩) fun rest hrest => ?_
  · exact hs.reaches h (Store.reaches_of_walk (.inl hw))
  · cases rest with
    | ok w => exact hides_pure (hrest w rfl)
    | error tail => exact hides_fail _

theorem hides_car {r : PairRef} (hr : live (.pair r)) :
    (read fun s => (s.pair r).car : Eval Value).Hides name live (Value.Avoids name live) :=
  hides_read fun _ hs => ⟨rfl, (hs.pair hr).1⟩

theorem hides_cdr {r : PairRef} (hr : live (.pair r)) :
    (read fun s => (s.pair r).cdr : Eval Value).Hides name live (Value.Avoids name live) :=
  hides_read fun _ hs => ⟨rfl, (hs.pair hr).2⟩

theorem hides_elementAt (h : v.Avoids name live) (i : Value) :
    (elementAt v i).Hides name live (Value.Avoids name live) := by
  refine hides_bind hides_indexOf fun (k, index) _ => ?_
  refine hides_bind (hides_dropTo h k index) fun w hw => ?_
  cases w with
  | pair r => exact hides_car (Value.avoids_pair_iff.1 hw)
  | nil | integer | symbol | closure => exact hides_fail _

/-- No primitive uses a name. -/
theorem hides_apply (hname : (Value.symbol name).isBoolean = false) (op : Primitive)
    (h : ∀ v ∈ vs, v.Avoids name live) :
    (op.apply vs).Hides name live (Value.Avoids name live) := by
  have hbool : ∀ b, (Value.ofBool b).Avoids name live := Value.avoids_ofBool hname
  cases op with
  | add => exact hides_ofExcept (yields_sum Value.avoids_integer vs)
  | mul => exact hides_ofExcept (yields_product Value.avoids_integer vs)
  | sub => exact hides_ofExcept (yields_difference Value.avoids_integer vs)
  | div => exact hides_ofExcept (yields_quotient Value.avoids_integer vs)
  | max => exact hides_ofExcept (yields_greatest Value.avoids_integer vs)
  | min => exact hides_ofExcept (yields_least Value.avoids_integer vs)
  | abs => exact hides_ofExcept (yields_absolute Value.avoids_integer vs)
  | eq | lt | gt | le | ge => exact hides_ofExcept (yields_compare hbool _ _ vs)
  | isNumber | isBoolean | isSymbol | isPair | isNull | not => exact hides_predicate hname _ h
  | isList =>
    exact hides_unary (fun v _ => hides_read fun s _ =>
      ⟨congrArg Value.ofBool (Store.isList_without v), hbool _⟩) h
  | cons => exact hides_binary (fun v w hv hw => hides_cons hv hw) h
  | car => exact hides_unary (fun v hv => hides_bind (hides_pairOf hv) fun r hr => hides_car hr) h
  | cdr => exact hides_unary (fun v hv => hides_bind (hides_pairOf hv) fun r hr => hides_cdr hr) h
  | list => exact hides_list h
  | listRef => exact hides_binary (fun v i hv _ => hides_elementAt hv i) h
  | listTail =>
    exact hides_binary (fun v i hv _ => hides_bind hides_indexOf fun (k, index) _ =>
      hides_dropTo hv k index) h
  | setCar =>
    refine hides_binary (fun v w hv hw => hides_bind (hides_pairOf hv) fun r hr => ?_) h
    exact hides_bind (hides_setCar hr hw) fun _ _ => hides_pure Value.avoids_nil
  | setCdr =>
    refine hides_binary (fun v w hv hw => hides_bind (hides_pairOf hv) fun r hr => ?_) h
    exact hides_bind (hides_setCdr hr hw) fun _ _ => hides_pure Value.avoids_nil

end Primitive

/-- The evaluator does not use the name, unless it occurs in the expression. -/
def Evaluator.Hides (name : String) (live : Place → Prop) (ev : Evaluator) : Prop :=
  ∀ (v : Value) (f : FrameRef), v.Avoids name live → live (.frame f) →
    (ev v f).Hides name live (Value.Avoids name live)

namespace Eval

/-! ## Lists and procedures -/

theorem hides_render (v : Value) : (render v).Hides name live fun _ => True :=
  hides_find fun _ _ => ⟨Store.render?_without v, fun _ _ => trivial⟩

/-- An error that shows a value. -/
theorem hides_failShown {α : Type} {P : α → Prop} (e : String → EvalError) (v : Value) :
    (render v >>= fun shown => fail (e shown) : Eval α).Hides name live P :=
  hides_bind (hides_render v) fun _ _ => hides_fail _

theorem hides_elements (h : v.Avoids name live) :
    (find fun s => s.elements? v : Eval (List Value × Value)).Hides name live
      fun x => ∀ item ∈ x.1, item.Avoids name live :=
  hides_find fun _ hs => ⟨Store.elements?_without v, fun _ hx => hs.elements? h hx⟩

theorem hides_properList (what : String) (h : v.Avoids name live) :
    (properList what v).Hides name live fun items => ∀ item ∈ items, item.Avoids name live := by
  refine hides_bind (hides_elements h) fun (items, tail) hitems => ?_
  cases tail with
  | nil => exact hides_pure hitems
  | integer | symbol | pair | closure => exact hides_fail _

variable {ev : Evaluator} {f : FrameRef}

theorem hides_operandValues (hev : ev.Hides name live) (h : v.Avoids name live)
    (hf : live (.frame f)) :
    (operandValues ev v f).Hides name live fun items => ∀ item ∈ items, item.Avoids name live :=
  hides_bind (hides_properList _ h) fun _ hforms =>
    hides_mapM (fun form hform => hev form f hform hf) hforms

theorem hides_parameterName (h : v.Avoids name live) :
    (parameterName v).Hides name live fun other => other ≠ name := by
  cases v with
  | symbol other => exact hides_pure fun heq => h.1 (congrArg _ heq)
  | nil | integer | pair | closure => exact hides_failShown _ _

theorem hides_parameterNames (h : v.Avoids name live) :
    (parameterNames v).Hides name live fun names => ∀ other ∈ names, other ≠ name := by
  rw [parameterNames]
  split
  · refine hides_bind (hides_elements h) fun parts hitems => ?_
    obtain ⟨items, tail⟩ := parts
    cases tail with
    | nil => exact hides_mapM (fun _ hitem => hides_parameterName hitem) hitems
    | integer | symbol | pair | closure => exact hides_fail _
  · exact hides_fail _

theorem hides_closureOf (h : ∀ v ∈ vs, v.Avoids name live) (hf : live (.frame f)) :
    (closureOf f vs).Hides name live fun c => (Cell.closure c).Avoids name live := by
  rcases vs with _ | ⟨params, _ | ⟨form, forms⟩⟩
  · exact hides_fail _
  · exact hides_fail _
  · obtain ⟨hparams, hbody⟩ := List.forall_mem_cons.1 h
    refine hides_bind (hides_parameterNames hparams) fun names hnames => hides_pure ?_
    exact Cell.avoids_closure_iff.2 ⟨fun hmem => hnames name hmem rfl, hbody, hf⟩

theorem hides_makeClosure (h : ∀ v ∈ vs, v.Avoids name live) (hf : live (.frame f)) :
    (makeClosure f vs).Hides name live fun c => live (.closure c) := by
  rw [makeClosure_eq]
  exact hides_bind (hides_closureOf h hf) fun _ hc => hides_newClosure hc

theorem hides_body (hev : ev.Hides name live) (h : ∀ v ∈ vs, v.Avoids name live)
    (hf : live (.frame f)) : (body ev f vs).Hides name live (Value.Avoids name live) := by
  have hfold : ∀ last : Value, last.Avoids name live →
      (vs.foldlM (fun _ form => ev form f) last).Hides name live (Value.Avoids name live) := by
    induction vs with
    | nil => exact fun last hlast => hides_pure hlast
    | cons v vs ih =>
      obtain ⟨hv, hrest⟩ := List.forall_mem_cons.1 h
      exact fun _ _ => hides_bind (hev v f hv hf) (ih hrest)
  exact hfold .nil Value.avoids_nil

theorem hides_call (hev : ev.Hides name live) {c : ClosureRef} (hc : live (.closure c))
    (h : ∀ v ∈ vs, v.Avoids name live) :
    (call ev c vs).Hides name live (Value.Avoids name live) := by
  refine hides_bind (P := fun C => (Cell.closure C).Avoids name live)
    (hides_read fun s hs => ⟨rfl, hs.cell _ hc⟩) fun C hC => ?_
  obtain ⟨hparams, hbody, hscope⟩ := Cell.avoids_closure_iff.1 hC
  split
  · -- The new frame, its bindings, and then the body in it.
    refine hides_bind (hides_newFrame fun g hg => Option.some.inj hg ▸ hscope) fun f hf => ?_
    refine hides_bind (hides_bindAll hf fun entry hentry => ?_) fun _ _ => hides_body hev hbody hf
    exact ⟨fun heq => hparams (heq ▸ (List.of_mem_zip hentry).1), h _ (List.of_mem_zip hentry).2⟩
  · exact hides_fail _

/-! ## Special forms -/

theorem hides_target (form : SpecialForm) (h : ∀ v ∈ vs, v.Avoids name live) :
    (target form vs).Hides name live fun x => x.1 ≠ name ∧ x.2.Avoids name live := by
  rcases vs with _ | ⟨v, _ | ⟨w, _ | ⟨u, vs⟩⟩⟩
  · exact hides_fail _
  · cases v <;> exact hides_fail _
  · obtain ⟨hv, hrest⟩ := List.forall_mem_cons.1 h
    cases v with
    | symbol other => exact hides_pure ⟨fun heq => hv.1 (congrArg _ heq), hrest w List.mem_cons_self⟩
    | nil | integer | pair | closure => exact hides_failShown _ _
  · cases v <;> exact hides_fail _

theorem hides_define (hev : ev.Hides name live) (h : ∀ v ∈ vs, v.Avoids name live)
    (hf : live (.frame f)) : (define ev f vs).Hides name live (Value.Avoids name live) := by
  refine hides_bind (hides_target .define h) fun (other, expression) ⟨hother, hexpression⟩ => ?_
  refine hides_bind (hev expression f hexpression hf) fun v hv => ?_
  exact hides_bind (StoreM.hides_define hf hother hv) fun _ _ =>
    hides_pure (Value.avoids_symbol hother)

theorem hides_bindsLocally {other : String} (h : other ≠ name) :
    (read fun s => s.bindsLocally f other : Eval Bool).Hides name live fun _ => True :=
  hides_read fun _ _ => ⟨Store.bindsLocally_without h, trivial⟩

theorem hides_assign {other : String} (h : other ≠ name) (hv : v.Avoids name live)
    (hf : live (.frame f)) : (assign f other v).Hides name live (Value.Avoids name live) := by
  rw [World.assign_eq]
  refine hides_bind (hides_bindsLocally h) fun bound _ => ?_
  split
  · exact hides_bind (StoreM.hides_define hf h hv) fun _ _ => hides_pure Value.avoids_nil
  · exact hides_fail _

theorem hides_set (hev : ev.Hides name live) (h : ∀ v ∈ vs, v.Avoids name live)
    (hf : live (.frame f)) : (set ev f vs).Hides name live (Value.Avoids name live) := by
  refine hides_bind (hides_target .assign h) fun (other, expression) ⟨hother, hexpression⟩ => ?_
  refine hides_bind (hides_bindsLocally hother) fun bound _ => ?_
  split
  · exact hides_bind (hev expression f hexpression hf) fun v hv => hides_assign hother hv hf
  · exact hides_fail _

theorem hides_branch (hev : ev.Hides name live) {condition consequent : Value}
    {alternative : Option Value} (hcondition : condition.Avoids name live)
    (hconsequent : consequent.Avoids name live)
    (halternative : ∀ v, alternative = some v → v.Avoids name live) (hf : live (.frame f)) :
    (branch ev f condition consequent alternative).Hides name live (Value.Avoids name live) := by
  refine hides_bind (hev condition f hcondition hf) fun truth _ => ?_
  split
  · split
    · cases alternative with
      | some v => exact hev v f (halternative v rfl) hf
      | none => exact hides_pure Value.avoids_nil
    · exact hev consequent f hconsequent hf
  · exact hides_failShown _ _

theorem hides_evaluateWhile (hev : ev.Hides name live) (goesOn : Value → Bool)
    (hlast : v.Avoids name live) (h : ∀ v ∈ vs, v.Avoids name live) (hf : live (.frame f)) :
    (evaluateWhile ev f goesOn v vs).Hides name live (Value.Avoids name live) := by
  induction vs generalizing v with
  | nil => exact hides_pure hlast
  | cons form forms ih =>
    obtain ⟨hform, hforms⟩ := List.forall_mem_cons.1 h
    refine hides_bind (hev form f hform hf) fun u hu => ?_
    split
    · exact ih hu hforms
    · exact hides_pure hu

theorem hides_applyForm (hname : (Value.symbol name).isBoolean = false)
    (hev : ev.Hides name live) (form : SpecialForm) (h : ∀ v ∈ vs, v.Avoids name live)
    (hf : live (.frame f)) : (form.apply ev f vs).Hides name live (Value.Avoids name live) := by
  cases form with
  | quote =>
    rcases vs with _ | ⟨v, _ | ⟨w, vs⟩⟩
    · exact hides_fail _
    · exact hides_pure (h v List.mem_cons_self)
    · exact hides_fail _
  | define => exact hides_define hev h hf
  | assign => exact hides_set hev h hf
  | conditional =>
    have hnone : ∀ u : Value, none = some u → u.Avoids name live := fun _ h => nomatch h
    rcases vs with _ | ⟨v, _ | ⟨w, _ | ⟨u, _ | ⟨u', vs⟩⟩⟩⟩
    · exact hides_fail _
    · exact hides_fail _
    · exact hides_branch hev (h v (by simp)) (h w (by simp)) hnone hf
    · exact hides_branch hev (h v (by simp)) (h w (by simp))
        (fun v hv => Option.some.inj hv ▸ h u (by simp)) hf
    · exact hides_fail _
  | lambda => exact hides_map (hides_makeClosure h hf) fun _ hc => Value.avoids_closure_iff.2 hc
  | conjunction => exact hides_evaluateWhile hev _ (Value.avoids_ofBool hname true) h hf
  | disjunction => exact hides_evaluateWhile hev _ (Value.avoids_ofBool hname false) h hf

/-! ## Expressions -/

theorem hides_lookup {other : String} (h : other ≠ name) (hf : live (.frame f)) :
    (read fun s => s.lookup? f other : Eval (Option Value)).Hides name live
      fun o => ∀ v, o = some v → v.Avoids name live :=
  hides_read fun _ hs => ⟨Store.lookup?_without h, fun _ hv => hs.lookup? hf hv⟩

theorem hides_application (hname : (Value.symbol name).isBoolean = false)
    (hev : ev.Hides name live) {head operands : Value} (hhead : head.Avoids name live)
    (hoperands : operands.Avoids name live) (hf : live (.frame f)) :
    (application ev head operands f).Hides name live (Value.Avoids name live) := by
  cases head with
  | nil | integer | closure => exact hides_fail _
  | symbol other =>
    have hother : other ≠ name := fun heq => hhead.1 (congrArg _ heq)
    rw [application]
    split
    · cases Operator.named? other with
      | some op =>
        cases op with
        | special form =>
          exact hides_bind (hides_properList other hoperands) fun forms hforms =>
            hides_applyForm hname hev form hforms hf
        | primitive op =>
          exact hides_bind (hides_operandValues hev hoperands hf) fun args hargs =>
            Primitive.hides_apply hname op hargs
      | none =>
        refine hides_bind (hides_lookup hother hf) fun o ho => ?_
        rcases o with _ | v
        · exact hides_fail _
        · cases v with
          | closure c =>
            exact hides_bind (hides_operandValues hev hoperands hf) fun args hargs =>
              hides_call hev (Value.avoids_closure_iff.1 (ho _ rfl)) hargs
          | nil | integer | symbol | pair => exact hides_fail _
    · exact hides_fail _
  | pair r =>
    refine hides_bind (P := fun p => p.car.Avoids name live ∧ p.cdr.Avoids name live)
      (hides_read fun _ hs => ⟨rfl, hs.pair (Value.avoids_pair_iff.1 hhead)⟩)
      fun form hform => ?_
    split
    · refine hides_bind (hides_properList _ hform.2) fun parts hparts => ?_
      refine hides_bind (hides_makeClosure hparts hf) fun c hc => ?_
      exact hides_bind (hides_operandValues hev hoperands hf) fun args hargs =>
        hides_call hev hc hargs
    · exact hides_failShown _ _

theorem hides_expression (hname : (Value.symbol name).isBoolean = false)
    (hev : ev.Hides name live) (h : v.Avoids name live) (hf : live (.frame f)) :
    (expression ev v f).Hides name live (Value.Avoids name live) := by
  cases v with
  | nil => exact hides_fail _
  | integer | closure => exact hides_pure h
  | symbol other =>
    rw [expression]
    split
    · exact hides_pure h
    · refine hides_bind (hides_lookup (fun heq => h.1 (congrArg _ heq)) hf) fun o ho => ?_
      cases o with
      | none => exact hides_fail _
      | some v => exact hides_pure (ho v rfl)
  | pair r =>
    refine hides_bind (P := fun p => p.car.Avoids name live ∧ p.cdr.Avoids name live)
      (hides_read fun _ hs => ⟨rfl, hs.pair (Value.avoids_pair_iff.1 h)⟩) fun form hform => ?_
    exact hides_application hname hev hform.1 hform.2 hf

/-- Evaluation does not use a name that does not occur, however many levels it is
    given. -/
theorem hides_evaluate (hname : (Value.symbol name).isBoolean = false) (n : Nat) :
    Evaluator.Hides name live (evaluate n) := by
  induction n with
  | zero => exact fun _ _ _ _ _ _ => .unfinished
  | succ n ih => exact fun _ _ h hf => hides_expression hname ih h hf

end Eval

end SmallScheme
