import SmallScheme.Proofs.Machine.Layout
import SmallScheme.Proofs.Session

/-!
# No program changes program text

Quoting hands out parts of a program as data, which may then be changed; and
there is one store for all pairs, which any number of places may share. Still, in
a session there is at every moment a layout of the store under which all that is
to be evaluated is program text, and all that programs can get hold of is data
(`Passes.suits`). So no program reaches a pair of the text of a program, be it its
own, and that text stays as it was read (`text_never_changed`); the interpreter keeps
the text of a closure from the answers to some texts through those to others
(`Interpreter.runAll_keeps_text`).
-/

namespace SmallScheme

namespace Moment

/-- The expressions there are: those that have been entered, the bodies of
    closures, and what is being evaluated or waits to be. -/
inductive Expression (M : Moment) : Value → Prop
  | entered {v : Value} : v ∈ M.entered → Expression M v
  | body {v : Value} (c : ClosureRef) : v ∈ (M.machine.store.closure c).body → Expression M v
  | control {v : Value} : v ∈ M.machine.control.forms → Expression M v
  | pending {v : Value} (p : Pending) : p ∈ M.machine.pending → v ∈ p.forms → Expression M v

/-- The values that programs get hold of: what names are bound to, arguments,
    those that are going to be arguments, and results. -/
inductive Root (M : Moment) : Value → Prop
  | binding {f : FrameRef} {name : String} {v : Value} :
      (name, v) ∈ (M.machine.store.frame f).bindings → Root M v
  | control {v : Value} : v ∈ M.machine.control.values → Root M v
  | pending {v : Value} (p : Pending) : p ∈ M.machine.pending → v ∈ p.values → Root M v

/-- The pair is part of the text of an expression, outside of what is quoted. -/
def IsText (M : Moment) (r : PairRef) : Prop :=
  ∃ v, M.Expression v ∧ M.machine.store.InText .form v r

/-- Programs can reach the pair. -/
def IsData (M : Moment) (r : PairRef) : Prop :=
  ∃ v, M.Root v ∧ M.machine.store.Reaches v (.pair r)

end Moment

namespace Layout

/-- The machine suits the layout, and so does all that has been entered. -/
structure SuitsMoment (σ : Layout) (M : Moment) : Prop where
  suits : σ.Suits M.machine.store (M.machine.control, M.machine.pending)
  entered : ∀ v ∈ M.entered, σ.At M.machine.store .form v

variable {σ σ' : Layout} {M M' : Moment} {r : PairRef} {v : Value}

theorem SuitsMoment.expression (h : σ.SuitsMoment M) (hv : M.Expression v) :
    σ.At M.machine.store .form v := by
  cases hv with
  | entered hv => exact h.entered v hv
  | body c hv => exact h.suits.fits.body c v hv
  | control hv => exact h.suits.form v hv
  | pending p hp hv => exact (h.suits.waits p hp).form v hv

theorem SuitsMoment.root (h : σ.SuitsMoment M) (hv : M.Root v) :
    σ.At M.machine.store .datum v := by
  cases hv with
  | binding hv => exact h.suits.fits.binding _ _ hv
  | control hv => exact h.suits.value v hv
  | pending p hp hv => exact (h.suits.waits p hp).value v hv

theorem SuitsMoment.of_isText (h : σ.SuitsMoment M) (hr : M.IsText r) :
    r.index < M.machine.store.pairs.size ∧ σ r ≠ .datum := by
  obtain ⟨v, hv, hr⟩ := hr
  exact h.suits.fits.of_inText (h.expression hv) hr

theorem SuitsMoment.of_isData (h : σ.SuitsMoment M) (hr : M.IsData r) :
    r.index < M.machine.store.pairs.size ∧ σ r = .datum := by
  obtain ⟨v, hv, hr⟩ := hr
  exact h.suits.fits.reaches (h.root hv) hr r rfl

/-- From one moment to the next, a layout is kept, or extended to what is
    entered. -/
theorem SuitsMoment.next {i : Interpreter} (h : σ.SuitsMoment M) (hnext : i.Next M M') :
    ∃ σ', Layout.SuitsMoment σ' M' ∧ σ.Extends M.machine.store σ' M'.machine.store := by
  cases hnext with
  | step hstep =>
    obtain ⟨hsuits, hext⟩ := h.suits.step hstep
    exact ⟨σ, ⟨hsuits, fun v hv => hext.at (h.entered v hv)⟩, hext⟩
  | @enter _ _ datum _ _ =>
    obtain ⟨σ', hfits, hat, hext⟩ := h.suits.fits.load datum .form
    refine ⟨σ', ⟨suits_form hfits hat, List.forall_mem_cons.2 ⟨hat, fun v hv => ?_⟩⟩, hext⟩
    exact hext.at (h.entered v hv)

theorem SuitsMoment.later {i : Interpreter} (h : σ.SuitsMoment M) (hlater : i.Later M M') :
    ∃ σ', Layout.SuitsMoment σ' M' ∧ σ.Extends M.machine.store σ' M'.machine.store := by
  induction hlater with
  | refl => exact ⟨σ, h, .refl σ _⟩
  | tail _ hnext ih =>
    obtain ⟨σ₁, h₁, hext₁⟩ := ih
    obtain ⟨σ₂, h₂, hext₂⟩ := h₁.next hnext
    exact ⟨σ₂, h₂, hext₁.trans hext₂⟩

/-- What is data is no program text, now or later. -/
theorem SuitsMoment.not_isText {i : Interpreter} (h : σ.SuitsMoment M) (hr : M.IsData r)
    (hlater : i.Later M M') : ¬ M'.IsText r := by
  intro htext
  obtain ⟨hlt, hdatum⟩ := h.of_isData hr
  obtain ⟨σ', hσ', hext⟩ := h.later hlater
  exact (hσ'.of_isText htext).2 ((hext.layout_eq r hlt).trans hdatum)

/-- What is program text stays so, and as it is. -/
theorem SuitsMoment.text_later {i : Interpreter} (h : σ.SuitsMoment M) (hr : M.IsText r)
    (hlater : i.Later M M') : ∃ σ' : Layout, σ'.SuitsMoment M' ∧
      r.index < M'.machine.store.pairs.size ∧ σ' r ≠ .datum ∧
      M'.machine.store.pair r = M.machine.store.pair r := by
  obtain ⟨hlt, htext⟩ := h.of_isText hr
  obtain ⟨σ', hσ', hext⟩ := h.later hlater
  refine ⟨σ', hσ', Nat.lt_of_lt_of_le hlt hext.size_le, ?_, hext.pair_eq r hlt htext⟩
  rwa [hext.layout_eq r hlt]

theorem SuitsMoment.not_isData {i : Interpreter} (h : σ.SuitsMoment M) (hr : M.IsText r)
    (hlater : i.Later M M') : ¬ M'.IsData r := by
  intro hdata
  obtain ⟨_, hσ', -, htext, -⟩ := h.text_later hr hlater
  exact htext (hσ'.of_isData hdata).2

theorem SuitsMoment.pair_eq {i : Interpreter} (h : σ.SuitsMoment M) (hr : M.IsText r)
    (hlater : i.Later M M') : M'.machine.store.pair r = M.machine.store.pair r := by
  obtain ⟨_, -, -, -, heq⟩ := h.text_later hr hlater
  exact heq

theorem SuitsMoment.isSome_elements? {i : Interpreter} (h : σ.SuitsMoment M) (hr : M.IsText r)
    (hlater : i.Later M M') : (M'.machine.store.elements? (.pair r)).isSome := by
  obtain ⟨σ', hσ', hlt, htext, -⟩ := h.text_later hr hlater
  refine hσ'.suits.fits.isSome_elements? (p := σ' r) (fun q hq => ?_) htext
  obtain rfl := Value.pair.inj hq
  exact ⟨hlt, rfl⟩

/-- If the evaluation of an expression does not even start, it is the printing of
    something that has no end. -/
theorem SuitsMoment.exists_shows {scope : FrameRef} (h : σ.SuitsMoment M) (hv : M.Expression v)
    (hstart : (Move.evaluate v scope).run M.machine.store = .unfinished) :
    ∃ w, Move.Shows M.machine.store v w ∧ M.machine.store.render? w = none := by
  cases hstart ▸ Move.start_evaluate v scope M.machine.store with
  | unfinished hstuck =>
    cases hstuck with
    | list hw hnone =>
      have hsome := h.suits.fits.isSome_of_takesApart (h.expression hv) hw
      rw [hnone] at hsome
      cases hsome
    | shown hw hnone => exact ⟨_, hw, hnone⟩

end Layout

/-- At every moment of a session that starts with nothing there is a layout. -/
theorem Interpreter.Passes.suits {M : Moment} (h : Passes .empty M) :
    ∃ σ : Layout, σ.SuitsMoment M := by
  have hfits : Layout.Fits (fun _ => .datum) (Interpreter.new .empty).2 := by
    refine ⟨fun _ _ => rfl, fun r => ?_, fun r => ?_, fun r q hr => absurd rfl hr,
      fun c => List.forall_mem_nil _, fun f entry hentry => ?_⟩
    · rw [Store.pair_of_le (Nat.zero_le _)]
      exact Layout.at_of_ne_pair (by simp)
    · rw [Store.pair_of_le (Nat.zero_le _)]
      exact Layout.at_of_ne_pair (by simp)
    · exact absurd (Store.mem_bindings_newFrame (s := .empty) hentry) List.not_mem_nil
  have hstart : Layout.SuitsMoment (fun _ => .datum) (.start (Interpreter.new .empty).2) :=
    ⟨Layout.suits_value hfits (Layout.at_of_ne_pair (by simp)), List.forall_mem_nil _⟩
  obtain ⟨σ, hσ, _⟩ := hstart.later h
  exact ⟨σ, hσ⟩

/-- No pair of a program text can be reached by a program. So a pair that is handed
    to a primitive, to be changed perhaps, is none, now or later; a program text
    stays as it is; and the lists in it have an end. All that is taken apart to
    evaluate an expression has one, operands, the parts of a `lambda` form and
    parameters, and its evaluation starts unless there is something to print that
    has no end. -/
theorem text_never_changed {M : Moment} (hM : Interpreter.Passes .empty M) :
    (∀ r, M.IsText r → ¬ M.IsData r) ∧
    (∀ op args r, M.machine.control = .apply (.primitive op) args → .pair r ∈ args →
      ∀ M', (Interpreter.new .empty).1.Later M M' → ¬ M'.IsText r) ∧
    (∀ r, M.IsText r → ∀ M', (Interpreter.new .empty).1.Later M M' →
      M'.machine.store.pair r = M.machine.store.pair r) ∧
    (∀ r, M.IsText r → (M.machine.store.elements? (.pair r)).isSome) ∧
    ∀ v, M.Expression v →
      (∀ w, Move.TakesApart M.machine.store v w → (M.machine.store.elements? w).isSome) ∧
      ∀ scope, (Move.evaluate v scope).run M.machine.store = .unfinished →
        ∃ w, Move.Shows M.machine.store v w ∧ M.machine.store.render? w = none := by
  obtain ⟨σ, hσ⟩ := hM.suits
  have hnow : (Interpreter.new .empty).1.Later M M := .refl
  refine ⟨fun r htext => hσ.not_isData htext hnow, fun op args r hcontrol hr M' hlater => ?_,
    fun r htext M' hlater => hσ.pair_eq htext hlater,
    fun r htext => hσ.isSome_elements? htext hnow,
    fun v hv => ⟨fun w hw => ?_, fun scope hstart => hσ.exists_shows hv hstart⟩⟩
  · -- The pair is an argument, and so it is data.
    have hroot : M.Root (.pair r) := .control (by rwa [hcontrol])
    exact hσ.not_isText ⟨_, hroot, .refl _⟩ hlater
  · exact hσ.suits.fits.isSome_of_takesApart (hσ.expression hv) hw

/-- In `(set-car! (quote (1 2)) 3)` the list that is quoted is changed, and the
    quotation around it is not. -/
theorem text_never_changed_quotation :
    ∃ M w, Interpreter.Passes .empty M ∧
      M.machine.control = .apply (.primitive .setCar) [.pair ⟨1⟩, w] ∧ M.IsText ⟨2⟩ ∧
      M.IsData ⟨1⟩ ∧ ¬ M.IsData ⟨2⟩ ∧
      (∀ M', (Interpreter.new .empty).1.Later M M' →
        ¬ M'.IsText ⟨1⟩ ∧ M'.machine.store.pair ⟨2⟩ = ⟨.pair ⟨1⟩, .nil⟩) ∧
      (M.machine.store.elements? (.pair ⟨2⟩)).isSome := by
  have hread : readExpression "(set-car! (quote (1 2)) 3)" = .ok
      (.pair (.symbol "set-car!") (.pair (.pair (.symbol "quote") (.pair
        (.pair (.integer ⟨1, by decide⟩) (.pair (.integer ⟨2, by decide⟩) .nil)) .nil))
        (.pair (.integer ⟨3, by decide⟩) .nil))) := by cbv
  have henter := Interpreter.Next.enter (i := (Interpreter.new .empty).1)
    (M := .start (Interpreter.new .empty).2) rfl hread
  have hM := (((((Relation.ReflTransGen.single henter).tail (.step rfl)).tail (.step rfl)).tail
    (.step rfl)).tail (.step rfl)).tail (.step rfl)
  obtain ⟨hapart, hchanged, hkept, hends, -⟩ := text_never_changed hM
  refine ⟨_, _, hM, rfl, ?text, ⟨.pair ⟨1⟩, .control List.mem_cons_self, .refl _⟩, hapart _ ?text,
    fun M' hlater => ⟨hchanged .setCar _ _ rfl List.mem_cons_self M' hlater,
      hkept _ ?text M' hlater⟩, hends _ ?text⟩
  exact ⟨.pair ⟨6⟩, .entered List.mem_cons_self, .cdr (.car (.cdr (.self (by decide))))⟩

/-- So the body of a closure that is there when an interpreter has answered some texts is the
    same when it has answered any others after them. No name is then bound to what reaches a
    pair of it, and the lists in it have an end. -/
theorem Interpreter.runAll_keeps_text {n n' : Nat} {texts more : List String}
    {answers answers' : List (Except RunError String)} {s t : Store} {c : ClosureRef} {v : Value}
    {r : PairRef}
    (h : (new .empty).1.runAll n texts (new .empty).2 = some (answers, s))
    (h' : (new .empty).1.runAll n' more s = some (answers', t))
    (hv : v ∈ (s.closure c).body) (hr : s.InText .form v r) :
    t.pair r = s.pair r ∧ (t.elements? (.pair r)).isSome ∧
      ∀ f name w, (name, w) ∈ (t.frame f).bindings → ¬ t.Reaches w (.pair r) := by
  obtain ⟨M, hM, hended, rfl⟩ := runAll_leaves_later (M := .start (new .empty).2) n rfl h
  obtain ⟨M', hM', -, rfl⟩ := runAll_leaves_later n' hended h'
  obtain ⟨σ, hσ⟩ := Passes.suits hM.later
  have htext : M.IsText r := ⟨v, .body c hv, hr⟩
  refine ⟨hσ.pair_eq htext hM'.later, hσ.isSome_elements? htext hM'.later,
    fun f name w hbound hreach => ?_⟩
  exact hσ.not_isData htext hM'.later ⟨w, .binding hbound, hreach⟩

end SmallScheme
