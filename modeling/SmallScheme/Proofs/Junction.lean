import SmallScheme.Proofs.Machine.Levels
import SmallScheme.Proofs.Naming.Calls
import SmallScheme.Proofs.Primitive.Expression
import SmallScheme.Proofs.Store.Forms
import SmallScheme.Proofs.World.Alike

/-!
# Conjunctions and disjunctions

Operands of a conjunction may be put into a conjunction of their own, in front or at the
end, and the negation of a conjunction is the disjunction of the negations; and the other
way round (`short_circuit_algebra`). Operands may have any effects, fail, or not come to an
end, so this is about where the evaluation stops, not only about the value.

Both forms are one loop, which goes on as long as the values are not, or are, false
(`Eval.goesOn`). The loop is taken apart where its operands are
(`Eval.evaluateWhile_append`), and what an inner form comes to is again such a loop
(`Eval.unbounded_junction`), if it is still in the store as it was made. An inner form in
front is evaluated before anything can happen to it, so this form and the flat one
evaluate the same in stores that differ in new pairs only (`Eval.ComesTo`). To one at the
end, or to a negation, much may have happened before its turn comes; but nobody knows the
pairs that it is in (`World.Spells`), so nobody changes them (`World.Extends.spells`).

Forms that are nested to different depths evaluate the same operands within different
numbers of levels. They are compared without a bound, and then for all numbers that are
large enough (`Eval.eventually_alike`).
-/

namespace SmallScheme

open StoreM

/-! ## Forms to compare -/

/-- The conjunction and the disjunction, by their value if there are no operands. -/
def SpecialForm.junction : Bool → SpecialForm
  | true => .conjunction
  | false => .disjunction

namespace Eval

section Shapes

variable (b : Bool) (xs ys : List Value)

/-- The form `(and xs.. ys..)`, or the one with `or`. -/
def flat : Eval Value := newForm (SpecialForm.junction b).name (xs ++ ys)

/-- The form `(and (and xs..) ys..)`, or the one with `or`. -/
def nestedFirst : Eval Value := do
  let inner ← newForm (SpecialForm.junction b).name xs
  newForm (SpecialForm.junction b).name (inner :: ys)

/-- The form `(and xs.. (and ys..))`, or the one with `or`. -/
def nestedLast : Eval Value := do
  let inner ← newForm (SpecialForm.junction b).name ys
  newForm (SpecialForm.junction b).name (xs ++ [inner])

/-- The form `(not (and xs..))`, or the one with `or`. -/
def negation : Eval Value := do
  let inner ← newForm (SpecialForm.junction b).name xs
  newForm Primitive.not.name [inner]

/-- The form `(and (not x)..)` of all `x` among `xs`, or the one with `or`. -/
def ofNegations : Eval Value := do
  let negations ← xs.mapM fun x => newForm Primitive.not.name [x]
  newForm (SpecialForm.junction b).name negations

end Shapes

/-- The value of an expression that is made first. -/
def evaluateNew (n : Nat) (form : Eval Value) (scope : FrameRef) : Eval Value :=
  form >>= fun v => evaluate n v scope

theorem exists_negations (xs : List Value) (s : Store) :
    ∃ negations t, (xs.mapM fun x => newForm Primitive.not.name [x]).run s = .value negations t ∧
      s.Grows t ∧ List.Forall₂ (fun x v => s.NewForm t v Primitive.not.name [x]) xs negations := by
  induction xs generalizing s with
  | nil => exact ⟨[], s, rfl, .refl s, .nil⟩
  | cons x xs ih =>
    obtain ⟨v, t, hv, hgrows, hform⟩ := exists_newForm s Primitive.not.name [x]
    obtain ⟨negations, u, hnegations, hgrows', hforms⟩ := ih t
    refine ⟨v :: negations, u, ?_, hgrows.trans hgrows',
      .cons (hform.grows hgrows') (hforms.imp fun _ _ h => h.of_grows hgrows)⟩
    rw [List.mapM_cons, run_bind, hv]
    dsimp only
    rw [run_bind, hnegations]
    rfl

theorem exists_ofNegations (b : Bool) (xs : List Value) (s : Store) :
    ∃ negations v t, (ofNegations b xs).run s = .value v t ∧ s.Grows t ∧
      List.Forall₂ (fun x v => s.NewForm t v Primitive.not.name [x]) xs negations ∧
      s.NewForm t v (SpecialForm.junction b).name negations := by
  obtain ⟨negations, t, hnegations, hgrows, hforms⟩ := exists_negations xs s
  obtain ⟨v, u, hv, hgrows', hform⟩ := exists_newForm t (SpecialForm.junction b).name negations
  refine ⟨negations, v, u, ?_, hgrows.trans hgrows', hforms.imp fun _ _ h => h.grows hgrows',
    hform.of_grows hgrows⟩
  rw [ofNegations, run_bind, hnegations, ← hv]

/-! ## Conjunctions and disjunctions in a row -/

/-- Does a conjunction, or a disjunction, go on after this value? -/
def goesOn (b : Bool) (v : Value) : Bool := v.isFalse != b

/-- The value of a conjunction or disjunction whose operands are evaluated from left to
    right, as long as it goes on. -/
theorem apply_junction (b : Bool) (ev : Evaluator) (scope : FrameRef) (operands : List Value) :
    (SpecialForm.junction b).apply ev scope operands =
      evaluateWhile ev scope (goesOn b) (.ofBool b) operands := by
  cases b
  · have h : goesOn false = fun v => v.isFalse := funext fun v => Bool.bne_false _
    rw [h]
    rfl
  · have h : goesOn true = fun v => !v.isFalse := funext fun v => Bool.bne_true _
    rw [h]
    rfl

/-- What a negation does to a value keeps the one form going just as the value itself
    keeps the other. -/
theorem goesOn_ofBool_isFalse (b : Bool) (v : Value) :
    goesOn (!b) (.ofBool v.isFalse) = goesOn b v := by
  rw [goesOn, goesOn]
  cases v.isFalse <;> cases b <;> rfl

theorem goesOn_ofBool (b : Bool) : goesOn b (.ofBool b) = true := by cases b <;> rfl

variable (ev : Evaluator) (scope : FrameRef) (b : Bool)

/-- What comes after the first operands is evaluated only if they let it be. -/
theorem evaluateWhile_append {last : Value} (hlast : goesOn b last) (xs ys : List Value) :
    evaluateWhile ev scope (goesOn b) last (xs ++ ys) =
      evaluateWhile ev scope (goesOn b) last xs >>= fun v =>
        if goesOn b v then evaluateWhile ev scope (goesOn b) v ys else pure v := by
  induction xs generalizing last with
  | nil => rw [List.nil_append, evaluateWhile, pure_bind, if_pos hlast]
  | cons x xs ih =>
    rw [List.cons_append, evaluateWhile, evaluateWhile, bind_assoc]
    refine congrArg _ (funext fun v => ?_)
    split
    · rename_i hv
      exact ih hv
    · rename_i hv
      rw [pure_bind, if_neg hv]

/-- Only without operands does it matter what comes of none. -/
theorem evaluateWhile_of_ne_nil {ys : List Value} (hys : ys ≠ []) (last last' : Value) :
    evaluateWhile ev scope (goesOn b) last ys = evaluateWhile ev scope (goesOn b) last' ys := by
  cases ys with
  | nil => exact absurd rfl hys
  | cons y ys => rfl

variable {scope b} {s : Store} {v : Value} {rs : List PairRef} {operands : List Value}

theorem unbounded_pair {r : PairRef} {w : Value} (h : (s.pair r).car = w) :
    (unbounded (.pair r) scope).run s =
      (application unbounded w (s.pair r).cdr scope).run s := by
  rw [← expression_unbounded, expression, run_bind, run_read, ← h]

/-- A conjunction or disjunction in the store. -/
theorem unbounded_junction
    (h : s.ListAt v rs (.symbol (SpecialForm.junction b).name :: operands)) :
    (unbounded v scope).run s =
      (evaluateWhile unbounded scope (goesOn b) (.ofBool b) operands).run s := by
  obtain ⟨r, rfl, hhead, hoperands⟩ := h.exists_pair
  rw [unbounded_pair hhead, application_special _ (Store.isListLike_of_elements? hoperands),
    run_bind, properList_eq_value_iff.2 hoperands]
  exact congrArg (StoreM.run · s) (apply_junction b unbounded scope operands)

/-- A negation in the store. -/
theorem unbounded_not {x : Value} (h : s.ListAt v rs [.symbol Primitive.not.name, x]) :
    (unbounded v scope).run s =
      (unbounded x scope >>= fun v => pure (.ofBool v.isFalse)).run s := by
  obtain ⟨r, rfl, hhead, hoperands⟩ := h.exists_pair
  rw [unbounded_pair hhead, application_primitive _ (Store.isListLike_of_elements? hoperands),
    operandValues, bind_assoc, run_bind, properList_eq_value_iff.2 hoperands]
  simp only [List.mapM_cons, List.mapM_nil, bind_assoc, pure_bind]
  rfl

end Eval

/-! ## The same on both sides of a world -/

namespace World

open Eval

variable {W W' : World} {scope : FrameRef} {b : Bool} {vs ws us : List Value} {v w : Value}

theorem respects_unbounded : Evaluator.Respects unbounded := by
  intro W v w f g hv hscope
  obtain ⟨n, hleft, hright⟩ :=
    ((settles_evaluate v f W.left).and (settles_evaluate w g W.right)).exists
  rw [Simulates, ← hleft, ← hright]
  exact respects_evaluate n W hv hscope

/-- On the right, there is something at a pair that has no counterpart on the left. -/
def Apart (W : World) (r : PairRef) : Prop := W.right.Has (.pair r) ∧ ∀ p, ¬W.rel p (.pair r)

/-- On the right, the form with the given head and operands is at `v`, in pairs without
    counterparts. -/
def Spells (W : World) (v : Value) (head : String) (operands : List Value) : Prop :=
  ∃ rs, W.right.ListAt v rs (.symbol head :: operands) ∧ ∀ r ∈ rs, W.Apart r

/-- What has been made since is known to nobody. -/
theorem Since.spells {roots : Place → Prop} {s : Store} (h : W.Since roots s) {head : String}
    (hform : s.NewForm W.right v head us) : W.Spells v head us := by
  obtain ⟨rs, hlist, hnew⟩ := hform
  refine ⟨rs, hlist, fun r hr => ⟨(hnew r hr).2, fun p hp => (hnew r hr).1 ?_⟩⟩
  obtain ⟨hreachable, rfl⟩ := (h.rel_iff _ _).1 hp
  exact h.has _ hreachable

/-- Nobody changes a form of which nobody knows. -/
theorem Extends.spells (h : W.Extends W') {head : String} (hform : W.Spells v head us) :
    W'.Spells v head us := by
  obtain ⟨rs, hlist, hapart⟩ := hform
  refine ⟨rs, hlist.congr fun r hr => ?_, fun r hr => ?_⟩
  · exact Cell.pair.inj (h.right_cell (.pair r) (hapart r hr).1 (hapart r hr).2)
  · refine ⟨h.right_has (hapart r hr).1, fun p hp => ?_⟩
    obtain hp | ⟨-, hnew, -⟩ := h.new p _ hp
    · exact (hapart r hr).2 p hp
    · exact hnew (hapart r hr).1

theorem simulates_junction (b : Bool) (hscope : W.rel (.frame scope) (.frame scope))
    (hlast : W.rel.OnValue v w) (h : List.Forall₂ W.rel.OnValue vs ws) :
    W.Simulates (fun W => W.rel.OnValue) (evaluateWhile unbounded scope (goesOn b) v vs)
      (evaluateWhile unbounded scope (goesOn b) w ws) :=
  simulates_evaluateWhile respects_unbounded (fun h => by rw [goesOn, goesOn, h.isFalse_eq])
    hscope hlast h

/-- The operands at the end may just as well be in a form of their own. -/
theorem simulates_nestedLast {xs ys xs' ys' : List Value} {inner : Value} (hys : ys ≠ [])
    (hscope : W.rel (.frame scope) (.frame scope)) (hxs : List.Forall₂ W.rel.OnValue xs xs')
    (hysys : List.Forall₂ W.rel.OnValue ys ys')
    (hinner : W.Spells inner (SpecialForm.junction b).name ys') :
    W.Simulates (fun W => W.rel.OnValue)
      (evaluateWhile unbounded scope (goesOn b) (.ofBool b) (xs ++ ys))
      (evaluateWhile unbounded scope (goesOn b) (.ofBool b) (xs' ++ [inner])) := by
  rw [evaluateWhile_append _ _ _ (goesOn_ofBool b), evaluateWhile_append _ _ _ (goesOn_ofBool b)]
  refine simulates_bind (simulates_junction b hscope (Renaming.onValue_ofBool b) hxs)
    fun W₁ v w h₁ hvw => ?_
  rw [goesOn, goesOn, hvw.isFalse_eq]
  split
  · -- What comes of the inner form is the end, whatever it is.
    obtain ⟨rs, hlist, -⟩ := h₁.spells hinner
    have hlast : evaluateWhile unbounded scope (goesOn b) w [inner] = unbounded inner scope := by
      simp only [evaluateWhile, ite_self, bind_pure]
    rw [hlast, Simulates, unbounded_junction hlist, evaluateWhile_of_ne_nil _ _ _ hys v (.ofBool b)]
    exact simulates_junction b (h₁.le _ _ hscope) (Renaming.onValue_ofBool b)
      (Renaming.onValues_mono h₁.le hysys)
  · exact simulates_pure hvw

/-- A negated conjunction is a disjunction of negations, and the other way round. -/
theorem simulates_ofNegations {xs xs' negations : List Value} (last : Value)
    (hscope : W.rel (.frame scope) (.frame scope)) (hxs : List.Forall₂ W.rel.OnValue xs xs')
    (hnegations : List.Forall₂ (fun x v => W.Spells v Primitive.not.name [x]) xs' negations) :
    W.Simulates (fun W => W.rel.OnValue)
      (evaluateWhile unbounded scope (goesOn b) last xs >>= fun v => pure (.ofBool v.isFalse))
      (evaluateWhile unbounded scope (goesOn !b) (.ofBool last.isFalse) negations) := by
  induction xs generalizing W xs' negations last with
  | nil =>
    cases hxs
    cases hnegations
    exact simulates_pure (Renaming.onValue_ofBool _)
  | cons x xs ih =>
    obtain - | @⟨_, x', _, xs', hx, hxs⟩ := hxs
    obtain - | @⟨_, negation, _, negations, ⟨rs, hlist, -⟩, hnegations⟩ := hnegations
    have hright : ((unbounded negation scope) >>= fun v =>
        if goesOn (!b) v then evaluateWhile unbounded scope (goesOn !b) v negations
        else pure v).run W.right = (unbounded x' scope >>= fun v =>
        if goesOn b v then evaluateWhile unbounded scope (goesOn !b) (.ofBool v.isFalse) negations
        else pure (.ofBool v.isFalse)).run W.right := by
      rw [run_bind, unbounded_not hlist, ← run_bind, bind_assoc]
      simp only [pure_bind, goesOn_ofBool_isFalse]
    rw [evaluateWhile, evaluateWhile, bind_assoc, Simulates, hright]
    refine simulates_bind (respects_unbounded W hx hscope) fun W₁ v w h₁ hvw => ?_
    rw [goesOn, goesOn, hvw.isFalse_eq]
    split
    · rw [← hvw.isFalse_eq]
      exact ih _ (h₁.le _ _ hscope) (Renaming.onValues_mono h₁.le hxs)
        (hnegations.imp fun _ _ h => h₁.spells h)
    · rw [pure_bind, hvw.isFalse_eq]
      exact simulates_pure (Renaming.onValue_ofBool _)

end World

namespace Eval

open Filter

variable {b : Bool} {s : Store} {scope : FrameRef} {xs ys : List Value}

/-- The form that is made in the store `s` comes to what the computation `c` comes to. -/
def ComesTo (form : Eval Value) (scope : FrameRef) (s : Store) (c : Eval Value) : Prop :=
  ∃ v t, form.run s = .value v t ∧ s.Grows t ∧ (unbounded v scope).run t = c.run t

theorem comesTo_flat (b : Bool) (scope : FrameRef) (xs ys : List Value) (s : Store) :
    ComesTo (flat b xs ys) scope s
      (evaluateWhile unbounded scope (goesOn b) (.ofBool b) (xs ++ ys)) := by
  obtain ⟨v, t, hv, hgrows, rs, hlist, -⟩ :=
    exists_newForm s (SpecialForm.junction b).name (xs ++ ys)
  exact ⟨v, t, hv, hgrows, unbounded_junction hlist⟩

/-- The form in front is evaluated first, when nothing can have changed it. -/
theorem comesTo_nestedFirst (b : Bool) (scope : FrameRef) (xs ys : List Value) (s : Store) :
    ComesTo (nestedFirst b xs ys) scope s
      (evaluateWhile unbounded scope (goesOn b) (.ofBool b) (xs ++ ys)) := by
  obtain ⟨inner, v, t, hv, hgrows, ⟨_, hinner, -⟩, _, houter, -⟩ := exists_newForm_bind s
    (SpecialForm.junction b).name (SpecialForm.junction b).name xs fun inner => inner :: ys
  refine ⟨v, t, hv, hgrows, ?_⟩
  rw [unbounded_junction houter, evaluateWhile, run_bind, unbounded_junction hinner, ← run_bind,
    evaluateWhile_append _ _ _ (goesOn_ofBool b)]

theorem comesTo_negation (b : Bool) (scope : FrameRef) (xs : List Value) (s : Store) :
    ComesTo (negation b xs) scope s
      (evaluateWhile unbounded scope (goesOn b) (.ofBool b) xs >>= fun v =>
        pure (.ofBool v.isFalse)) := by
  obtain ⟨inner, v, t, hv, hgrows, ⟨_, hinner, -⟩, _, houter, -⟩ := exists_newForm_bind s
    (SpecialForm.junction b).name Primitive.not.name xs fun inner => [inner]
  refine ⟨v, t, hv, hgrows, ?_⟩
  rw [unbounded_not houter, run_bind, unbounded_junction hinner, ← run_bind]

/-- Forms that come to ends that stand for each other in a world since `s` end alike within
    all large numbers of levels. -/
theorem eventually_alike {roots : Place → Prop} (hs : s.Sound roots) {form form' : Eval Value}
    {v w : Value} {t u : Store} (hv : form.run s = .value v t) (ht : s.Grows t)
    (hw : form'.run s = .value w u) (hu : s.Grows u)
    (h : ∀ W : World, W.left = t → W.right = u → W.Since roots s →
      W.Ends (fun W => W.rel.OnValue) ((unbounded v scope).run t) ((unbounded w scope).run u)) :
    ∀ᶠ n in atTop, ((evaluateNew n form scope).run s).Alike roots s
      ((evaluateNew n form' scope).run s) := by
  obtain ⟨W, hleft, hright, hW⟩ := World.exists_since hs ht hu
  have halike := hW.alike_of_ends (h W hleft hright hW)
  filter_upwards [settles_evaluate v scope t, settles_evaluate w scope u] with n hn hn'
  rw [← hn, ← hn'] at halike
  rw [evaluateNew, evaluateNew, run_bind, run_bind, hv, hw]
  exact halike

theorem rootsOf_mem (operands : List Value) (scope : FrameRef) :
    ∀ x ∈ operands, ∀ p, x.place? = some p → rootsOf operands scope p :=
  fun x hx _ hp => .inl ⟨x, hx, hp⟩

/-- Forms that come to the same conjunction or disjunction. -/
theorem ComesTo.alike {form form' : Eval Value} (hs : s.Sound (rootsOf xs scope))
    (h : ComesTo form scope s (evaluateWhile unbounded scope (goesOn b) (.ofBool b) xs))
    (h' : ComesTo form' scope s (evaluateWhile unbounded scope (goesOn b) (.ofBool b) xs)) :
    ∀ᶠ n in atTop, ((evaluateNew n form scope).run s).Alike (rootsOf xs scope) s
      ((evaluateNew n form' scope).run s) := by
  obtain ⟨v, t, hv, hgrows, hcomes⟩ := h
  obtain ⟨w, u, hw, hgrows', hcomes'⟩ := h'
  refine eventually_alike hs hv hgrows hw hgrows' ?_
  rintro W rfl rfl hW
  rw [hcomes, hcomes']
  exact World.simulates_junction b (hW.rel_self (.inr rfl)) (Renaming.onValue_ofBool b)
    (hW.onValues_self (rootsOf_mem xs scope))

/-- The form with the last operands in a form of their own. -/
theorem ComesTo.alike_nestedLast {form : Eval Value} (hs : s.Sound (rootsOf (xs ++ ys) scope))
    (hys : ys ≠ [])
    (h : ComesTo form scope s (evaluateWhile unbounded scope (goesOn b) (.ofBool b) (xs ++ ys))) :
    ∀ᶠ n in atTop, ((evaluateNew n form scope).run s).Alike (rootsOf (xs ++ ys) scope) s
      ((evaluateNew n (nestedLast b xs ys) scope).run s) := by
  obtain ⟨v, t, hv, hgrows, hcomes⟩ := h
  obtain ⟨inner, w, u, hw, hgrows', hinner, _, houter, -⟩ := exists_newForm_bind s
    (SpecialForm.junction b).name (SpecialForm.junction b).name ys fun inner => xs ++ [inner]
  refine eventually_alike hs hv hgrows hw hgrows' ?_
  rintro W rfl rfl hW
  rw [hcomes, unbounded_junction houter]
  have hself := rootsOf_mem (xs ++ ys) scope
  exact World.simulates_nestedLast hys (hW.rel_self (.inr rfl))
    (hW.onValues_self fun x hx => hself x (List.mem_append_left _ hx))
    (hW.onValues_self fun y hy => hself y (List.mem_append_right _ hy)) (hW.spells hinner)

theorem negation_alike (b : Bool) (hs : s.Sound (rootsOf xs scope)) :
    ∀ᶠ n in atTop, ((evaluateNew n (negation b xs) scope).run s).Alike (rootsOf xs scope) s
      ((evaluateNew n (ofNegations (!b) xs) scope).run s) := by
  obtain ⟨v, t, hv, hgrows, hcomes⟩ := comesTo_negation b scope xs s
  obtain ⟨negations, w, u, hw, hgrows', hnegations, _, houter, -⟩ := exists_ofNegations (!b) xs s
  refine eventually_alike hs hv hgrows hw hgrows' ?_
  rintro W rfl rfl hW
  rw [hcomes, unbounded_junction houter]
  have hends := World.simulates_ofNegations (b := b) (.ofBool b) (hW.rel_self (.inr rfl))
    (hW.onValues_self (rootsOf_mem xs scope)) (hnegations.imp fun _ _ h => hW.spells h)
  have hlast : (Value.ofBool b).isFalse = !b := by cases b <;> rfl
  rwa [hlast] at hends

end Eval

open Eval in
/-- It makes no difference to a conjunction whether some operands in front, or some at the
    end, are in a conjunction of their own; and the negation of a conjunction is the
    disjunction of the negations. Whatever the operands do, the forms end alike, if there
    are levels enough. Likewise with conjunction and disjunction the other way round. -/
theorem short_circuit_algebra (b : Bool) (s : Store) (scope : FrameRef) (xs : List Value) :
    (∀ ys, ys ≠ [] → s.Sound (rootsOf (xs ++ ys) scope) → ∃ bound, ∀ n ≥ bound,
      ((evaluateNew n (flat b xs ys) scope).run s).Alike (rootsOf (xs ++ ys) scope) s
        ((evaluateNew n (nestedFirst b xs ys) scope).run s) ∧
      ((evaluateNew n (flat b xs ys) scope).run s).Alike (rootsOf (xs ++ ys) scope) s
        ((evaluateNew n (nestedLast b xs ys) scope).run s) ∧
      ((evaluateNew n (nestedFirst b xs ys) scope).run s).Alike (rootsOf (xs ++ ys) scope) s
        ((evaluateNew n (nestedLast b xs ys) scope).run s)) ∧
    (s.Sound (rootsOf xs scope) → ∃ bound, ∀ n ≥ bound,
      ((evaluateNew n (negation b xs) scope).run s).Alike (rootsOf xs scope) s
        ((evaluateNew n (ofNegations (!b) xs) scope).run s)) := by
  refine ⟨fun ys hys hs => ?_, fun hs => Filter.eventually_atTop.1 (negation_alike b hs)⟩
  have hflat := comesTo_flat b scope xs ys s
  have hfirst := comesTo_nestedFirst b scope xs ys s
  exact Filter.eventually_atTop.1 ((hflat.alike hs hfirst).and
    ((hflat.alike_nestedLast hs hys).and (hfirst.alike_nestedLast hs hys)))

open Eval in
/-- In `(and x y)`, where `x` is false, nobody asks what `y` is; and it is not bound. -/
theorem short_circuit_algebra_unbound :
    let s : Store := ⟨#[], #[], #[⟨none, [("x", .ofBool false)]⟩]⟩
    let xs : List Value := [.symbol "x"]
    let ys : List Value := [.symbol "y"]
    ys ≠ [] ∧ s.Sound (rootsOf (xs ++ ys) ⟨0⟩) ∧ s.Sound (rootsOf xs ⟨0⟩) ∧
    (∃ bound, ∀ n ≥ bound,
      ((evaluateNew n (flat true xs ys) ⟨0⟩).run s).Alike (rootsOf (xs ++ ys) ⟨0⟩) s
        ((evaluateNew n (nestedLast true xs ys) ⟨0⟩).run s) ∧
      ((evaluateNew n (negation true xs) ⟨0⟩).run s).Alike (rootsOf xs ⟨0⟩) s
        ((evaluateNew n (ofNegations false xs) ⟨0⟩).run s)) ∧
    (∃ t, (evaluateNew 2 (flat true xs ys) ⟨0⟩).run s = .value (.ofBool false) t) ∧
    (∃ t, (evaluateNew 3 (negation true xs) ⟨0⟩).run s = .value (.ofBool true) t) ∧
    ∃ t e, (evaluateNew 2 (flat false xs ys) ⟨0⟩).run s = .error e t := by
  intro s xs ys
  have hsound : ∀ names : List String, s.Sound (rootsOf (names.map .symbol) ⟨0⟩) := by
    intro names p hp
    have hframe : p = .frame ⟨0⟩ := by
      induction hp with
      | root hroot =>
        obtain ⟨v, hv, hp⟩ | rfl := hroot
        · obtain ⟨name, -, rfl⟩ := List.mem_map.1 hv
          cases hp
        · rfl
      | step _ hq ih =>
        subst ih
        obtain ⟨entry, hentry, hq⟩ | ⟨g, hg, -⟩ := hq
        · obtain rfl := List.mem_singleton.1 hentry
          cases hq
        · cases hg
    subst hframe
    exact ⟨Nat.one_pos, fun f hf => Place.frame.inj hf ▸ ⟨Nat.one_pos, nofun⟩⟩
  obtain ⟨hregroup, hnegate⟩ := short_circuit_algebra true s ⟨0⟩ xs
  obtain ⟨bound, hbound⟩ := hregroup ys nofun (hsound ["x", "y"])
  obtain ⟨bound', hbound'⟩ := hnegate (hsound ["x"])
  refine ⟨nofun, hsound ["x", "y"], hsound ["x"], ⟨max bound bound', fun n hn => ?_⟩,
    ⟨_, rfl⟩, ⟨_, rfl⟩, _, _, rfl⟩
  exact ⟨(hbound n (le_of_max_le_left hn)).2.1, hbound' n (le_of_max_le_right hn)⟩

end SmallScheme
