import SmallScheme.Proofs.Layout
import SmallScheme.Proofs.Machine.Start
import SmallScheme.Proofs.Primitive.Effect

/-!
# Program text and data in an evaluation

What a machine is going to evaluate is program text, and what it has evaluated
already is data (`Layout.Suits`). Each step keeps it so, under the same layout of
the store, and leaves program text as it is (`Suits.step`).
-/

namespace SmallScheme

open StoreM

/-! ## What a machine holds -/

/-- The expression that is evaluated, if there is one. -/
def Control.forms : Control → List Value
  | evaluate v _ => [v]
  | apply _ _ | value _ | error _ => []

/-- The arguments of what is applied, or the value there is. -/
def Control.values : Control → List Value
  | apply _ args => args
  | value v => [v]
  | evaluate _ _ | error _ => []

/-- The expressions that are still to be evaluated. -/
def Pending.forms : Pending → List Value
  | operand _ _ _ forms | body _ forms | junction _ _ forms => forms
  | define _ _ | assign _ _ => []
  | branch _ consequent alternative => consequent :: alternative.toList

/-- The values of the operands evaluated so far. -/
def Pending.values : Pending → List Value
  | operand _ _ values _ => values
  | body _ _ | define _ _ | assign _ _ | branch _ _ _ | junction _ _ _ => []

/-! ## What fits a layout -/

namespace Layout

variable {σ : Layout} {s t : Store} {scope : FrameRef} {r : PairRef} {v : Value}

/-- What waits is going to evaluate expressions, and what it has got already is
    data. -/
structure Waits (σ : Layout) (s : Store) (p : Pending) : Prop where
  form : ∀ v ∈ p.forms, σ.At s .form v
  value : ∀ v ∈ p.values, σ.At s .datum v

/-- The store is laid out by `σ`; what is evaluated, now or later, is an
    expression, and what has been evaluated is data. -/
structure Suits (σ : Layout) (s : Store) (move : Move) : Prop where
  fits : σ.Fits s
  form : ∀ v ∈ move.1.forms, σ.At s .form v
  value : ∀ v ∈ move.1.values, σ.At s .datum v
  waits : ∀ p ∈ move.2, σ.Waits s p

/-- The move goes on from the store `s` in a way that suits the layout. -/
abbrev Keeps (σ : Layout) (s : Store) (move : Eval Move) : Prop :=
  (move.run s).Satisfies (fun move t => σ.Suits t move ∧ σ.Extends s σ t)
    fun _ t => σ.Fits t ∧ σ.Extends s σ t

theorem extends_of_pairs_eq (h : t.pairs = s.pairs) : σ.Extends s σ t :=
  ⟨Nat.le_of_eq (congrArg _ h.symm), fun _ _ => rfl, fun r _ _ => Store.pair_congr h r⟩

theorem extends_newClosure {c : Closure} : σ.Extends s σ (s.newClosure c).2 :=
  extends_of_pairs_eq rfl

/-- A pair that is data is no program text, whatever is put into it. -/
theorem extends_of_pair_ne (hr : σ r = .datum) (hsize : t.pairs.size = s.pairs.size)
    (hne : ∀ q, q ≠ r → t.pair q = s.pair q) : σ.Extends s σ t :=
  ⟨Nat.le_of_eq hsize.symm, fun _ _ => rfl, fun q _ hq => hne q fun h => hq (h ▸ hr)⟩

theorem Extends.waits {p : Pending} (h : σ.Extends s σ t) (hp : σ.Waits s p) : σ.Waits t p :=
  ⟨fun v hv => h.at (hp.form v hv), fun v hv => h.at (hp.value v hv)⟩

section Moves

variable (h : σ.Fits s)

include h

/-- The operands of a form are expressions. -/
theorem Fits.at_operands {forms : List Value} (hr : σ.At s .form (.pair r))
    (hform : Move.IsForm s r forms) : ∀ form ∈ forms, σ.At s .form form := by
  have hcdr := h.cdr r
  rw [(hr r rfl).2, Role.cdr, if_neg hform.not_quote] at hcdr
  exact h.elements? hcdr (fun _ => rfl) hform.operands

/-- The operands of a quotation are data. -/
theorem Fits.at_quotation {items : List Value} (hr : σ.At s .form (.pair r))
    (hquote : (s.pair r).car = .symbol SpecialForm.quote.name)
    (hitems : s.elements? (s.pair r).cdr = some (items, .nil)) :
    ∀ item ∈ items, σ.At s .datum item := by
  have hcdr := h.cdr r
  rw [(hr r rfl).2, Role.cdr, if_pos hquote] at hcdr
  exact h.elements? hcdr (fun _ => rfl) hitems

theorem Fits.at_head (hr : σ.At s .form (.pair r)) (hcar : (s.pair r).car = v) :
    σ.At s .form v := by
  have hhead := h.car r
  rwa [(hr r rfl).2, hcar] at hhead

/-- What is taken apart to start the evaluation of an expression has an end. -/
theorem Fits.isSome_of_takesApart {w : Value} (hv : σ.At s .form v) (hw : Move.TakesApart s v w) :
    (s.elements? w).isSome := by
  induction hw with
  | operands r =>
    have hcdr := h.cdr r
    rw [(hv r rfl).2] at hcdr
    exact h.isSome_elements? hcdr (Role.cdr_ne_datum (by decide) _)
  | parameters hlambda hparts =>
    have hform := Move.isForm_of_lambda hlambda hparts
    exact h.isSome_elements? (h.at_operands hv hform _ List.mem_cons_self) (by decide)
  | head hcar _ _ ih => exact ih (h.at_head hv hcar)

theorem suits_value (hv : σ.At s .datum v) : σ.Suits s (.value v, []) :=
  ⟨h, List.forall_mem_nil _, List.forall_mem_singleton.2 hv, List.forall_mem_nil _⟩

theorem suits_form (hv : σ.At s .form v) : σ.Suits s (.evaluate v scope, []) :=
  ⟨h, List.forall_mem_singleton.2 hv, List.forall_mem_nil _, List.forall_mem_nil _⟩

theorem suits_pending {p : Pending} (hv : σ.At s .form v) (hp : σ.Waits s p) :
    σ.Suits s (.evaluate v scope, [p]) :=
  ⟨h, List.forall_mem_singleton.2 hv, List.forall_mem_nil _, List.forall_mem_singleton.2 hp⟩

theorem suits_operands {callee : Callee} {done forms : List Value}
    (hdone : ∀ v ∈ done, σ.At s .datum v) (hforms : ∀ form ∈ forms, σ.At s .form form) :
    σ.Suits s (Move.operands callee scope done forms) := by
  cases forms with
  | nil => exact ⟨h, List.forall_mem_nil _, hdone, List.forall_mem_nil _⟩
  | cons form forms =>
    obtain ⟨hform, hforms⟩ := List.forall_mem_cons.1 hforms
    exact suits_pending h hform ⟨hforms, hdone⟩

theorem suits_body {last : Value} {forms : List Value} (hlast : σ.At s .datum last)
    (hforms : ∀ form ∈ forms, σ.At s .form form) : σ.Suits s (Move.body scope last forms) := by
  cases forms with
  | nil => exact suits_value h hlast
  | cons form forms =>
    obtain ⟨hform, hforms⟩ := List.forall_mem_cons.1 hforms
    exact suits_pending h hform ⟨hforms, List.forall_mem_nil _⟩

theorem suits_junction {goesOn : Value → Bool} {last : Value} {forms : List Value}
    (hlast : σ.At s .datum last) (hforms : ∀ form ∈ forms, σ.At s .form form) :
    σ.Suits s (Move.junction scope goesOn last forms) := by
  cases forms with
  | nil => exact suits_value h hlast
  | cons form forms =>
    obtain ⟨hform, hforms⟩ := List.forall_mem_cons.1 hforms
    exact suits_pending h hform ⟨hforms, List.forall_mem_nil _⟩

end Moves

/-! ## Moves -/

theorem keeps_evaluate (h : σ.Fits s) (hv : σ.At s .form v) :
    σ.Keeps s (Move.evaluate v scope) := by
  have hstart := Move.start_evaluate v scope s
  unfold Keeps
  generalize (Move.evaluate v scope).run s = outcome at hstart ⊢
  cases hstart with
  | unfinished _ => trivial
  | error e => exact ⟨h, .refl σ s⟩
  | self hne => exact ⟨suits_value h (at_of_ne_pair hne), .refl σ s⟩
  | bound hfound => exact ⟨suits_value h (h.lookup? hfound), .refl σ s⟩
  | quote hquote hitems =>
    -- The only way by which part of a text becomes data.
    exact ⟨suits_value h (h.at_quotation hv hquote hitems _ List.mem_cons_self), .refl σ s⟩
  | define hform | assign hform =>
    have hforms := h.at_operands hv hform
    have hexpression := hforms _ (List.mem_cons_of_mem _ List.mem_cons_self)
    exact ⟨suits_pending h hexpression ⟨List.forall_mem_nil _, List.forall_mem_nil _⟩, .refl σ s⟩
  | conditional hform =>
    obtain ⟨hcondition, hbranches⟩ := List.forall_mem_cons.1 (h.at_operands hv hform)
    exact ⟨suits_pending h hcondition ⟨hbranches, List.forall_mem_nil _⟩, .refl σ s⟩
  | lambda hform =>
    -- The body of the closure is what follows the parameters.
    have hbody := (List.forall_mem_cons.1 (h.at_operands hv hform)).2
    exact ⟨suits_value (h.newClosure hbody) (at_of_ne_pair (by simp)), extends_newClosure⟩
  | junction goesOn last hform =>
    have hlast : σ.At s .datum (.ofBool last) := at_of_ne_pair (by simp [Value.ofBool])
    exact ⟨suits_junction h hlast (h.at_operands hv hform), .refl σ s⟩
  | primitive op hform | closure hform =>
    exact ⟨suits_operands h (List.forall_mem_nil _) (h.at_operands hv hform), .refl σ s⟩
  | inline hcar hq hform =>
    -- The `lambda` form in head position is an expression, too.
    have hbody := (List.forall_mem_cons.1 (h.at_operands (h.at_head hv hcar) hq)).2
    refine ⟨suits_operands (h.newClosure hbody) (List.forall_mem_nil _) fun form hmem => ?_,
      extends_newClosure⟩
    exact extends_newClosure.at (h.at_operands hv hform form hmem)
  | inlineError e hcar hq =>
    have hbody := (List.forall_mem_cons.1 (h.at_operands (h.at_head hv hcar) hq)).2
    exact ⟨h.newClosure hbody, extends_newClosure⟩

/-- What a primitive changes is data, and so is what it results in. -/
theorem keeps_primitive (h : σ.Fits s) {op : Primitive} {args : List Value}
    (hargs : ∀ v ∈ args, σ.At s .datum v) : ((op.apply args).run s).Satisfies
      (fun v t => σ.Fits t ∧ σ.At t .datum v ∧ σ.Extends s σ t)
      fun _ t => σ.Fits t ∧ σ.Extends s σ t := by
  have heffect := op.effect_apply args s
  generalize (op.apply args).run s = outcome at heffect ⊢
  cases heffect with
  | error e => exact ⟨h, .refl σ s⟩
  | plain hplain =>
    -- What has no place in the store is no pair.
    refine ⟨h, at_of_ne_pair fun r hr => ?_, .refl σ s⟩
    subst hr
    exact hplain
  | part hmem hreach => exact ⟨h, h.reaches (hargs _ hmem) hreach, .refl σ s⟩
  | cons v w =>
    obtain ⟨hv, hw⟩ := by simpa using hargs
    exact h.cons_datum hv hw
  | list => exact h.list hargs
  | setCar r w =>
    obtain ⟨hr, hw⟩ := by simpa using hargs
    refine ⟨h.setCar hr hw, at_of_ne_pair (by simp), ?_⟩
    exact extends_of_pair_ne (hr r rfl).2 Store.size_pairs_setCar fun q =>
      Store.pair_setCar_of_ne
  | setCdr r w =>
    obtain ⟨hr, hw⟩ := by simpa using hargs
    refine ⟨h.setCdr hr hw, at_of_ne_pair (by simp), ?_⟩
    exact extends_of_pair_ne (hr r rfl).2 Store.size_pairs_setCdr fun q =>
      Store.pair_setCdr_of_ne

theorem keeps_apply (h : σ.Fits s) {callee : Callee} {args : List Value}
    (hargs : ∀ v ∈ args, σ.At s .datum v) : σ.Keeps s (Move.apply callee args) := by
  cases callee with
  | primitive op =>
    simp only [Keeps, Move.apply, satisfies_bind]
    refine (keeps_primitive h hargs).imp (fun v t hkept => ?_) fun _ _ ht => ht
    obtain ⟨ht, hv, hext⟩ := hkept
    exact ⟨suits_value ht hv, hext⟩
  | closure c =>
    simp only [Keeps, Move.apply, satisfies_bind, run_read, Outcome.satisfies_value]
    split
    · -- Arguments are data, and so is what the new frame binds.
      have hentries : ∀ entry ∈ (s.closure c).params.zip args, σ.At s .datum entry.2 :=
        fun entry hentry => hargs _ (List.of_mem_zip hentry).2
      have hpairs : ((s.newFrame (some (s.closure c).scope)).2.bind ⟨s.frames.size⟩
        ((s.closure c).params.zip args)).pairs = s.pairs := Store.pairs_bind
      have hext := extends_of_pairs_eq (σ := σ) hpairs
      refine ⟨suits_body (h.newFrame _ _ hentries) (at_of_ne_pair (by simp))
        fun form hform => ?_, hext⟩
      exact hext.at (h.body c form hform)
    · exact ⟨h, .refl σ s⟩

theorem keeps_resume (h : σ.Fits s) {p : Pending} (hv : σ.At s .datum v) (hp : σ.Waits s p) :
    σ.Keeps s (Move.resume v p) := by
  obtain ⟨hforms, hvalues⟩ := hp
  cases p with
  | operand callee scope values forms =>
    refine ⟨suits_operands h (fun w hw => ?_) hforms, .refl σ s⟩
    rcases List.mem_append.1 hw with hw | hw
    · exact hvalues w hw
    · rwa [List.mem_singleton.1 hw]
  | body scope forms => exact ⟨suits_body h hv hforms, .refl σ s⟩
  | define scope name =>
    exact ⟨suits_value (h.define scope name hv) (at_of_ne_pair (by simp)), extends_of_pairs_eq rfl⟩
  | assign scope name =>
    simp only [Keeps, Move.resume, satisfies_bind]
    refine (Eval.assign_satisfies scope name v).imp ?_ ?_
    · rintro _ _ ⟨rfl, rfl⟩
      exact ⟨suits_value (h.define scope name hv) (at_of_ne_pair (by simp)),
        extends_of_pairs_eq rfl⟩
    · rintro _ _ rfl
      exact ⟨h, .refl σ _⟩
  | branch scope consequent alternative =>
    simp only [Keeps, Move.resume]
    split
    · split
      · cases alternative with
        | none => exact ⟨suits_value h (at_of_ne_pair (by simp)), .refl σ s⟩
        | some alternative =>
          have hchosen := hforms alternative (List.mem_cons_of_mem _ List.mem_cons_self)
          exact ⟨suits_form h hchosen, .refl σ s⟩
      · exact ⟨suits_form h (hforms consequent List.mem_cons_self), .refl σ s⟩
    · simp only [Eval.render, satisfies_bind, satisfies_find]
      exact fun _ _ => ⟨h, .refl σ s⟩
  | junction scope goesOn forms =>
    refine ⟨?_, .refl σ s⟩
    split
    · exact suits_junction h hv hforms
    · exact suits_value h hv

/-! ## Steps -/

/-- What a machine does next keeps the layout, if what waits besides suits it. -/
theorem suits_follow {m : Machine} {move : Eval Move} {waiting : List Pending}
    (h : σ.Suits m.store (m.control, m.pending)) (hwaiting : ∀ p ∈ waiting, σ.Waits m.store p)
    (hmove : σ.Keeps m.store move) : σ.Suits (m.follow move waiting).store
      ((m.follow move waiting).control, (m.follow move waiting).pending) ∧
      σ.Extends m.store σ (m.follow move waiting).store := by
  unfold Machine.follow
  rcases ho : move.run m.store with ⟨⟨control, added⟩, t⟩ | ⟨e, t⟩ | _ <;> rw [Keeps, ho] at hmove
  · obtain ⟨⟨hfits, hform, hvalue, hwaits⟩, hext⟩ := hmove
    refine ⟨⟨hfits, hform, hvalue, fun p hp => ?_⟩, hext⟩
    rcases List.mem_append.1 hp with hp | hp
    · exact hwaits p hp
    · exact hext.waits (hwaiting p hp)
  · obtain ⟨hfits, hext⟩ := hmove
    have hwaits : ∀ p ∈ waiting, σ.Waits t p := fun p hp => hext.waits (hwaiting p hp)
    exact ⟨⟨hfits, List.forall_mem_nil _, List.forall_mem_nil _, hwaits⟩, hext⟩
  · exact ⟨h, .refl σ _⟩

/-- A step keeps the layout, and leaves program text as it is. -/
theorem Suits.step {m m' : Machine} (h : σ.Suits m.store (m.control, m.pending))
    (hstep : m.step = some m') :
    σ.Suits m'.store (m'.control, m'.pending) ∧ σ.Extends m.store σ m'.store := by
  obtain ⟨control, pending, s⟩ := m
  have hsuits := h
  obtain ⟨hfits, hform, hvalue, hwaits⟩ := h
  cases control with
  | evaluate v scope =>
    obtain rfl := Option.some.inj hstep
    exact suits_follow hsuits hwaits (keeps_evaluate hfits (hform v List.mem_cons_self))
  | apply callee args =>
    obtain rfl := Option.some.inj hstep
    exact suits_follow hsuits hwaits (keeps_apply hfits hvalue)
  | value v =>
    cases pending with
    | nil => cases hstep
    | cons p waiting =>
      obtain rfl := Option.some.inj hstep
      obtain ⟨hp, hwaiting⟩ := List.forall_mem_cons.1 hwaits
      exact suits_follow hsuits hwaiting (keeps_resume hfits (hvalue v List.mem_cons_self) hp)
  | error e =>
    cases pending with
    | nil => cases hstep
    | cons p waiting =>
      obtain rfl := Option.some.inj hstep
      exact ⟨⟨hfits, hform, hvalue, (List.forall_mem_cons.1 hwaits).2⟩, .refl σ s⟩

end Layout

end SmallScheme
