import SmallScheme.Eval.Evaluate
import SmallScheme.Proofs.World.Primitive

/-!
# Evaluation on both sides

Evaluation gets hold of places only through the expression and the scope that it is
given. So two evaluations that start from places which stand for each other
end alike (`respects_evaluate`). One lemma for each part of the evaluator says
so, given that it is so for the evaluation of what is inside
(`Evaluator.Respects`); evaluation itself follows by induction on the number of levels.
-/

namespace SmallScheme

open StoreM

/-- The evaluator does the same on both sides of every world. -/
def Evaluator.Respects (ev : Evaluator) : Prop :=
  ∀ (W : World) {v w : Value} {f g : FrameRef}, W.rel.OnValue v w → W.rel (.frame f) (.frame g) →
    W.Simulates (fun W => W.rel.OnValue) (ev v f) (ev w g)

namespace Eval

/-- The closure that a `lambda` form of the given parts describes. -/
def closureOf (scope : FrameRef) : List Value → Eval Closure
  | [] => fail (.malformed .lambdaEmpty)
  | [_] => fail (.malformed .lambdaWithoutBody)
  | params :: body => do
    let names ← parameterNames params
    pure ⟨names, body, scope⟩

theorem makeClosure_eq (scope : FrameRef) (parts : List Value) :
    makeClosure scope parts = closureOf scope parts >>= fun c => create fun s => s.newClosure c := by
  rcases parts with _ | ⟨params, _ | ⟨form, forms⟩⟩
  · rfl
  · rfl
  · rw [closureOf, bind_assoc]
    · rfl
    · exact nofun

end Eval

namespace World

open Eval

variable {W : World} {v w : Value} {f g : FrameRef} {vs ws : List Value}

/-! ## Lists and procedures -/

theorem simulates_render (h : W.rel.OnValue v w) :
    W.Simulates (fun _ => Eq) (render v) (render w) := by
  refine simulates_find ?_
  rw [render_eq h]
  cases W.right.render? w with
  | none => exact .none
  | some shown => exact .some rfl

/-- An error that shows a value. -/
theorem simulates_failShown {α β : Type} {R : World → α → β → Prop} (e : String → EvalError)
    (h : W.rel.OnValue v w) :
    W.Simulates R (render v >>= fun shown => fail (e shown))
      (render w >>= fun shown => fail (e shown)) :=
  simulates_bind (simulates_render h) fun _ shown shown' _ heq => by
    subst heq
    exact simulates_fail _

theorem simulates_properList (what : String) (h : W.rel.OnValue v w) :
    W.Simulates (fun W => List.Forall₂ W.rel.OnValue) (properList what v) (properList what w) := by
  refine simulates_bind (simulates_find (R := World.OnElements) (onElements h))
    fun W' x y _ hxy => ?_
  obtain ⟨items, tail⟩ := x
  obtain ⟨items', tail'⟩ := y
  obtain ⟨hitems, htail⟩ : List.Forall₂ W'.rel.OnValue items items' ∧ W'.rel.OnValue tail tail' :=
    hxy
  cases htail with
  | nil => exact simulates_pure hitems
  | integer | symbol | pair | closure => exact simulates_fail _

theorem simulates_operandValues {ev : Evaluator} (hev : ev.Respects) (h : W.rel.OnValue v w)
    (hscope : W.rel (.frame f) (.frame g)) :
    W.Simulates (fun W => List.Forall₂ W.rel.OnValue) (operandValues ev v f)
      (operandValues ev w g) := by
  refine simulates_bind (simulates_properList _ h) fun W₁ forms forms' h₁ hforms => ?_
  exact simulates_mapM lasting_onValue lasting_onValue hforms fun W₂ form form' h₂ hform =>
    hev W₂ hform (h₂.le _ _ (h₁.le _ _ hscope))

theorem simulates_parameterName (h : W.rel.OnValue v w) :
    W.Simulates (fun _ => Eq) (parameterName v) (parameterName w) := by
  have hother : W.Simulates (fun _ => Eq)
      (render v >>= fun shown => fail (.malformed (.parameterNotSymbol shown)) : Eval String)
      (render w >>= fun shown => fail (.malformed (.parameterNotSymbol shown))) :=
    simulates_failShown _ h
  cases h with
  | symbol name => exact simulates_pure rfl
  | nil | integer | pair | closure => exact hother

theorem simulates_parameterNames (h : W.rel.OnValue v w) :
    W.Simulates (fun _ => Eq) (parameterNames v) (parameterNames w) := by
  rw [parameterNames, parameterNames, h.isListLike_eq, h.atomText_eq]
  split
  · refine simulates_bind (simulates_find (R := World.OnElements) (onElements h))
      fun W' x y _ hxy => ?_
    obtain ⟨items, tail⟩ := x
    obtain ⟨items', tail'⟩ := y
    obtain ⟨hitems, htail⟩ : List.Forall₂ W'.rel.OnValue items items' ∧ W'.rel.OnValue tail tail' :=
      hxy
    cases htail with
    | nil =>
      refine (simulates_mapM lasting_onValue lasting_eq hitems fun W₂ _ _ _ hitem =>
        simulates_parameterName hitem).imp fun _ names names' _ hnames => ?_
      rwa [List.forall₂_eq_eq_eq] at hnames
    | integer | symbol | pair | closure => exact simulates_fail _
  · exact simulates_fail _

theorem simulates_closureOf (hscope : W.rel (.frame f) (.frame g))
    (h : List.Forall₂ W.rel.OnValue vs ws) :
    W.Simulates (fun W => W.rel.OnClosure) (closureOf f vs) (closureOf g ws) := by
  rcases h with _ | ⟨hparams, _ | ⟨hform, hforms⟩⟩
  · exact simulates_fail _
  · exact simulates_fail _
  · refine simulates_bind (simulates_parameterNames hparams) fun W₁ names names' h₁ hnames => ?_
    exact simulates_pure ⟨hnames, Renaming.onValues_mono h₁.le (.cons hform hforms),
      h₁.le _ _ hscope⟩

theorem simulates_makeClosure (hscope : W.rel (.frame f) (.frame g))
    (h : List.Forall₂ W.rel.OnValue vs ws) :
    W.Simulates (fun W c d => W.rel (.closure c) (.closure d)) (makeClosure f vs)
      (makeClosure g ws) := by
  rw [makeClosure_eq, makeClosure_eq]
  exact simulates_bind (simulates_closureOf hscope h) fun _ _ _ _ hcd => simulates_newClosure hcd

theorem simulates_body {ev : Evaluator} (hev : ev.Respects) (hscope : W.rel (.frame f) (.frame g))
    (h : List.Forall₂ W.rel.OnValue vs ws) :
    W.Simulates (fun W => W.rel.OnValue) (body ev f vs) (body ev g ws) := by
  have hfold : ∀ {W : World} {last last'}, W.rel.OnValue last last' →
      W.rel (.frame f) (.frame g) → List.Forall₂ W.rel.OnValue vs ws →
      W.Simulates (fun W => W.rel.OnValue) (vs.foldlM (fun _ form => ev form f) last)
        (ws.foldlM (fun _ form => ev form g) last') := by
    clear h hscope
    intro W last last' hlast hscope h
    induction vs generalizing W ws last last' with
    | nil =>
      cases h
      exact simulates_pure hlast
    | cons v vs ih =>
      cases h with
      | cons hv hrest =>
        exact simulates_bind (hev W hv hscope) fun W' _ _ h' hvalue =>
          ih hvalue (h'.le _ _ hscope) (Renaming.onValues_mono h'.le hrest)
  exact hfold .nil hscope h

theorem simulates_call {ev : Evaluator} (hev : ev.Respects) {c d : ClosureRef}
    (hc : W.rel (.closure c) (.closure d)) (h : List.Forall₂ W.rel.OnValue vs ws) :
    W.Simulates (fun W => W.rel.OnValue) (call ev c vs) (call ev d ws) := by
  refine simulates_bind (simulates_read (R := fun W => W.rel.OnClosure) (onClosure hc))
    fun W₁ C D h₁ hCD => ?_
  rw [hCD.params, h.length_eq]
  split
  · -- The new frame, its bindings, and then the body in it.
    refine simulates_bind (simulates_newFrame (.some hCD.scope)) fun W₂ f g h₂ hscope => ?_
    have hargs := Renaming.onValues_mono (le_trans h₁.le h₂.le) h
    have hentries := Renaming.zip_onEntries hargs D.params
    refine simulates_bind (simulates_bindAll hscope hentries) fun W₃ _ _ h₃ _ => ?_
    exact simulates_body hev (h₃.le _ _ hscope)
      (Renaming.onValues_mono (le_trans h₂.le h₃.le) hCD.body)
  · exact simulates_fail _

/-! ## Special forms -/

variable {ev : Evaluator}

theorem simulates_target (form : SpecialForm) (h : List.Forall₂ W.rel.OnValue vs ws) :
    W.Simulates (fun W x y => x.1 = y.1 ∧ W.rel.OnValue x.2 y.2) (target form vs)
      (target form ws) := by
  rcases h with _ | ⟨htarget, _ | ⟨hvalue, _ | ⟨hother, hrest⟩⟩⟩
  · exact simulates_fail _
  · cases htarget <;> exact simulates_fail _
  · cases htarget with
    | symbol name => exact simulates_pure ⟨rfl, hvalue⟩
    | nil | integer => exact simulates_fail _
    | pair h => exact simulates_failShown _ (.pair h)
    | closure => exact simulates_fail _
  · cases htarget <;> exact simulates_fail _

theorem simulates_defineForm (hev : ev.Respects) (hscope : W.rel (.frame f) (.frame g))
    (h : List.Forall₂ W.rel.OnValue vs ws) :
    W.Simulates (fun W => W.rel.OnValue) (define ev f vs) (define ev g ws) := by
  refine simulates_bind (simulates_target .define h) fun W₁ x y h₁ hxy => ?_
  obtain ⟨name, expression⟩ := x
  obtain ⟨name', expression'⟩ := y
  obtain ⟨rfl, hexpression⟩ : name = name' ∧ W₁.rel.OnValue expression expression' := hxy
  refine simulates_bind (hev W₁ hexpression (h₁.le _ _ hscope)) fun W₂ v w h₂ hv => ?_
  refine simulates_bind (simulates_define (h₂.le _ _ (h₁.le _ _ hscope)) name hv) ?_
  exact fun _ _ _ _ _ => simulates_pure (.symbol name)

/-- An assignment is a definition, if the name is bound in the frame. -/
theorem assign_eq (scope : FrameRef) (name : String) (v : Value) :
    assign scope name v = (read fun s => s.bindsLocally scope name) >>= fun bound =>
      if bound then (modify fun s => s.define scope name v) >>= fun _ => pure .nil
      else fail (.unbound name) := by
  funext s
  rw [assign, Store.assign?]
  change _ = (if s.bindsLocally scope name then _ else _ : Eval Value).run s
  cases s.bindsLocally scope name <;> rfl

theorem simulates_assign (hscope : W.rel (.frame f) (.frame g)) (name : String)
    (hv : W.rel.OnValue v w) :
    W.Simulates (fun W => W.rel.OnValue) (assign f name v) (assign g name w) := by
  rw [assign_eq, assign_eq]
  refine simulates_bind (simulates_read (R := fun _ => Eq) (bindsLocally_eq hscope name))
    fun W₁ b b' h₁ hb => ?_
  subst hb
  split
  · exact simulates_bind (simulates_define (h₁.le _ _ hscope) name (hv.mono h₁.le))
      fun _ _ _ _ _ => simulates_pure .nil
  · exact simulates_fail _

theorem simulates_set (hev : ev.Respects) (hscope : W.rel (.frame f) (.frame g))
    (h : List.Forall₂ W.rel.OnValue vs ws) :
    W.Simulates (fun W => W.rel.OnValue) (set ev f vs) (set ev g ws) := by
  refine simulates_bind (simulates_target .assign h) fun W₁ x y h₁ hxy => ?_
  obtain ⟨name, expression⟩ := x
  obtain ⟨name', expression'⟩ := y
  obtain ⟨rfl, hexpression⟩ : name = name' ∧ W₁.rel.OnValue expression expression' := hxy
  have hscope₁ := h₁.le _ _ hscope
  refine simulates_bind (simulates_read (R := fun _ => Eq) (bindsLocally_eq hscope₁ name))
    fun W₂ b b' h₂ hb => ?_
  subst hb
  have hscope₂ := h₂.le _ _ hscope₁
  split
  · exact simulates_bind (hev W₂ (hexpression.mono h₂.le) hscope₂) fun W₃ v w h₃ hv =>
      simulates_assign (h₃.le _ _ hscope₂) name hv
  · exact simulates_fail _

theorem simulates_branch (hev : ev.Respects) (hscope : W.rel (.frame f) (.frame g))
    {condition condition' consequent consequent' : Value} {alternative alternative' : Option Value}
    (hcondition : W.rel.OnValue condition condition')
    (hconsequent : W.rel.OnValue consequent consequent')
    (halternative : Option.Rel W.rel.OnValue alternative alternative') :
    W.Simulates (fun W => W.rel.OnValue) (branch ev f condition consequent alternative)
      (branch ev g condition' consequent' alternative') := by
  refine simulates_bind (hev W hcondition hscope) fun W₁ truth truth' h₁ htruth => ?_
  have hscope₁ := h₁.le _ _ hscope
  rw [htruth.isBoolean_eq, htruth.isFalse_eq]
  split
  · split
    · cases halternative with
      | some h => exact hev W₁ (h.mono h₁.le) hscope₁
      | none => exact simulates_pure .nil
    · exact hev W₁ (hconsequent.mono h₁.le) hscope₁
  · exact simulates_failShown _ htruth

theorem simulates_evaluateWhile (hev : ev.Respects) {goesOn : Value → Bool}
    (hgoesOn : ∀ {ρ : Renaming} {v w : Value}, ρ.OnValue v w → goesOn v = goesOn w)
    (hscope : W.rel (.frame f) (.frame g)) (hlast : W.rel.OnValue v w)
    (h : List.Forall₂ W.rel.OnValue vs ws) :
    W.Simulates (fun W => W.rel.OnValue) (evaluateWhile ev f goesOn v vs)
      (evaluateWhile ev g goesOn w ws) := by
  induction vs generalizing W ws v w with
  | nil =>
    cases h
    exact simulates_pure hlast
  | cons form forms ih =>
    cases h with
    | cons hform hforms =>
      refine simulates_bind (hev W hform hscope) fun W₁ u u' h₁ hu => ?_
      rw [hgoesOn hu]
      split
      · exact ih (h₁.le _ _ hscope) hu (Renaming.onValues_mono h₁.le hforms)
      · exact simulates_pure hu

theorem simulates_applyForm (hev : ev.Respects) (form : SpecialForm)
    (hscope : W.rel (.frame f) (.frame g)) (h : List.Forall₂ W.rel.OnValue vs ws) :
    W.Simulates (fun W => W.rel.OnValue) (form.apply ev f vs) (form.apply ev g ws) := by
  cases form with
  | quote =>
    rcases h with _ | ⟨hdatum, _ | ⟨_, _⟩⟩
    · exact simulates_fail _
    · exact simulates_pure hdatum
    · exact simulates_fail _
  | define => exact simulates_defineForm hev hscope h
  | assign => exact simulates_set hev hscope h
  | conditional =>
    rcases h with _ | ⟨hcondition, _ | ⟨hconsequent, _ | ⟨halternative, _ | ⟨_, _⟩⟩⟩⟩
    · exact simulates_fail _
    · exact simulates_fail _
    · exact simulates_branch hev hscope hcondition hconsequent .none
    · exact simulates_branch hev hscope hcondition hconsequent (.some halternative)
    · exact simulates_fail _
  | lambda =>
    exact simulates_map (simulates_makeClosure hscope h) fun _ _ _ _ hc => .closure hc
  | conjunction =>
    exact simulates_evaluateWhile hev (fun h => by rw [h.isFalse_eq]) hscope
      (Renaming.onValue_ofBool true) h
  | disjunction =>
    exact simulates_evaluateWhile hev (fun h => h.isFalse_eq) hscope
      (Renaming.onValue_ofBool false) h

/-! ## Expressions -/

theorem simulates_application (hev : ev.Respects) {head head' operands operands' : Value}
    (hhead : W.rel.OnValue head head') (hoperands : W.rel.OnValue operands operands')
    (hscope : W.rel (.frame f) (.frame g)) :
    W.Simulates (fun W => W.rel.OnValue) (application ev head operands f)
      (application ev head' operands' g) := by
  cases hhead with
  | nil | integer | closure => exact simulates_fail _
  | symbol name =>
    rw [application, application, hoperands.isListLike_eq, hoperands.atomText_eq]
    split
    · cases Operator.named? name with
      | some op =>
        cases op with
        | special form =>
          exact simulates_bind (simulates_properList name hoperands)
            fun W₁ forms forms' h₁ hforms => simulates_applyForm hev form (h₁.le _ _ hscope) hforms
        | primitive op =>
          exact simulates_bind (simulates_operandValues hev hoperands hscope)
            fun W₁ args args' _ hargs => simulates_apply op hargs
      | none =>
        refine simulates_bind (simulates_read (R := fun W => Option.Rel W.rel.OnValue)
          (onLookup hscope name)) fun W₁ o o' h₁ ho => ?_
        rcases ho with @⟨v, w, hv⟩ | _
        · cases hv with
          | closure hc =>
            exact simulates_bind
              (simulates_operandValues hev (hoperands.mono h₁.le) (h₁.le _ _ hscope))
              fun W₂ args args' h₂ hargs => simulates_call hev (h₂.le _ _ hc) hargs
          | nil | integer | symbol | pair => exact simulates_fail _
        · exact simulates_fail _
    · exact simulates_fail _
  | @pair r q hpair =>
    refine simulates_bind (simulates_read (R := fun W => W.rel.OnPair) (onPair hpair))
      fun W₁ form form' h₁ hform => ?_
    have hscope₁ := h₁.le _ _ hscope
    have hlambda := hform.car.eq_symbol_iff SpecialForm.lambda.name
    by_cases hname : form.car = .symbol SpecialForm.lambda.name
    · rw [if_pos hname, if_pos (hlambda.1 hname)]
      refine simulates_bind (simulates_properList _ hform.cdr) fun W₂ parts parts' h₂ hparts => ?_
      have hscope₂ := h₂.le _ _ hscope₁
      refine simulates_bind (simulates_makeClosure hscope₂ hparts) fun W₃ c d h₃ hc => ?_
      have hoperands₃ := hoperands.mono (h₁.trans (h₂.trans h₃)).le
      exact simulates_bind (simulates_operandValues hev hoperands₃ (h₃.le _ _ hscope₂))
        fun W₄ args args' h₄ hargs => simulates_call hev (h₄.le _ _ hc) hargs
    · rw [if_neg hname, if_neg (mt hlambda.2 hname)]
      exact simulates_failShown _ ((Renaming.OnValue.pair hpair).mono h₁.le)

theorem simulates_expression (hev : ev.Respects) (h : W.rel.OnValue v w)
    (hscope : W.rel (.frame f) (.frame g)) :
    W.Simulates (fun W => W.rel.OnValue) (expression ev v f) (expression ev w g) := by
  cases h with
  | nil => exact simulates_fail _
  | integer n => exact simulates_pure (.integer n)
  | closure h => exact simulates_pure (.closure h)
  | symbol name =>
    rw [expression, expression]
    split
    · exact simulates_pure (.symbol name)
    · refine simulates_bind (simulates_read (R := fun W => Option.Rel W.rel.OnValue)
        (onLookup hscope name)) fun W₁ o o' _ ho => ?_
      rcases ho with @⟨v, w, hv⟩ | _
      · exact simulates_pure hv
      · exact simulates_fail _
  | pair h =>
    refine simulates_bind (simulates_read (R := fun W => W.rel.OnPair) (onPair h))
      fun W₁ form form' h₁ hform => ?_
    exact simulates_application hev hform.car hform.cdr (h₁.le _ _ hscope)

/-- Evaluation does the same on both sides, however many levels it is given. -/
theorem respects_evaluate (n : Nat) : Evaluator.Respects (evaluate n) := by
  induction n with
  | zero => exact fun _ _ _ _ _ _ _ => .unfinished
  | succ n ih => exact fun W _ _ _ _ h hscope => simulates_expression ih h hscope

end World

end SmallScheme
