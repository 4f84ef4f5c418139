import SmallScheme.Proofs.Separation
import SmallScheme.Proofs.Store.Cycle

/-!
# Cycles come from mutation only

A session is *careful* if no change of a pair stores a value from which the pair
can be reached (`Moment.Careful`), and a session in which nothing is changed is.
In a careful session no pair ever reaches itself: expressions and lists are made
of new pairs, to which nothing leads yet; a change that is careful closes no cycle;
and nothing else that an evaluation does concerns pairs (`Move.KeepsPairs`). Then
whatever is to be printed, compared or taken apart, this comes to an end
(`careful_session_acyclic`), also in the store that an interpreter leaves behind
when it has answered some texts (`Interpreter.runAll_leaves_acyclic`).
-/

namespace SmallScheme

open StoreM

/-! ## Moves that leave pairs alone -/

namespace Move

variable {s : Store}

/-- The move leaves all pairs as they are. -/
abbrev KeepsPairs (move : Eval Move) (s : Store) : Prop :=
  (move.run s).Leaves fun t => t.pairs = s.pairs

theorem keepsPairs_evaluate (v : Value) (scope : FrameRef) (s : Store) :
    KeepsPairs (evaluate v scope) s := by
  have hstart := start_evaluate v scope s
  unfold KeepsPairs
  generalize (evaluate v scope).run s = outcome at hstart ⊢
  cases hstart with
  | unfinished => trivial
  | error | self | bound | quote | define | assign | conditional | lambda | junction | primitive
  | closure | inline | inlineError => rfl

theorem keepsPairs_apply (c : ClosureRef) (args : List Value) (s : Store) :
    KeepsPairs (apply (.closure c) args) s := by
  simp only [KeepsPairs, apply, satisfies_bind, run_read, Outcome.satisfies_value]
  split
  · exact Store.pairs_bind
  · rfl

theorem keepsPairs_resume (v : Value) (p : Pending) (s : Store) : KeepsPairs (resume v p) s := by
  cases p with
  | operand | body | define | junction => rfl
  | assign scope name =>
    simp only [KeepsPairs, resume, satisfies_bind]
    refine (Eval.assign_satisfies scope name v).imp ?_ ?_
    · rintro _ _ ⟨rfl, rfl⟩
      rfl
    · rintro _ _ rfl
      rfl
  | branch scope consequent alternative =>
    simp only [KeepsPairs, resume]
    split
    · split
      · cases alternative <;> rfl
      · rfl
    · simp only [Eval.render, satisfies_bind, satisfies_find]
      exact fun _ _ => rfl

end Move

/-- What holds of the store after a move holds of it after the step. -/
theorem Machine.follow_leaves {m : Machine} {move : Eval Move} {waiting : List Pending}
    {P : Store → Prop} (hP : P m.store) (h : (move.run m.store).Leaves P) :
    P (m.follow move waiting).store := by
  unfold follow
  rcases ho : move.run m.store with ⟨⟨control, added⟩, t⟩ | ⟨e, t⟩ | _ <;> rw [ho] at h
  · exact h
  · exact h
  · exact hP

theorem Machine.pairs_follow {m : Machine} {move : Eval Move} {waiting : List Pending}
    (h : Move.KeepsPairs move m.store) : (m.follow move waiting).store.pairs = m.store.pairs :=
  follow_leaves (P := fun t => t.pairs = m.store.pairs) rfl h

/-! ## Careful sessions -/

/-- If a pair is going to be changed, it cannot be reached from what is stored in
    it. -/
def Moment.Careful (M : Moment) : Prop :=
  ∀ op r w, op = Primitive.setCar ∨ op = .setCdr →
    M.machine.control = .apply (.primitive op) [.pair r, w] → ¬ M.machine.store.Reaches w (.pair r)

/-- Whether a pair is going to be changed. -/
def Control.changesPair : Control → Bool
  | .apply (.primitive .setCar) _ | .apply (.primitive .setCdr) _ => true
  | _ => false

/-- Where no pair is going to be changed, no care is needed. -/
theorem Moment.careful_of_changesPair {M : Moment} (h : M.machine.control.changesPair = false) :
    M.Careful := by
  rintro _ r w (rfl | rfl) hcontrol
  · rw [hcontrol] at h
    cases h
  · rw [hcontrol] at h
    cases h

/-- The moments of sessions with an interpreter that is created in `s`, in which all
    changes of pairs so far have been careful. -/
def Interpreter.PassesCarefully (s : Store) : Moment → Prop :=
  Relation.ReflTransGen (fun M M' => M.Careful ∧ (new s).1.Next M M') (.start (new s).2)

theorem Interpreter.PassesCarefully.passes {s : Store} {M : Moment} (h : PassesCarefully s M) :
    Passes s M :=
  h.lift id fun _ _ hnext => hnext.2

/-- A session that is careful at all moments by the time at which it has been given certain
    texts passes carefully. -/
theorem Interpreter.Through.passesCarefully {s : Store} {texts : List String} {M : Moment}
    (h : (new s).1.Through (.start (new s).2) texts M)
    (hcareful : ∀ given N, given <+: texts → (new s).1.Through (.start (new s).2) given N →
      N.Careful) : PassesCarefully s M := by
  induction h with
  | start => exact .refl
  | step hM hstep ih =>
    exact (ih hcareful).tail ⟨hcareful _ _ (List.prefix_refl _) hM, .step hstep⟩
  | @enter texts N text _ hM hended htext ih =>
    have hprefix : texts <+: texts ++ [text] := List.prefix_append ..
    have hN := ih fun given N hgiven => hcareful given N (hgiven.trans hprefix)
    exact hN.tail ⟨hcareful texts N hprefix hM, .enter hended htext⟩
  | refuse _ _ _ ih =>
    exact ih fun given N hgiven => hcareful given N (hgiven.trans (List.prefix_append ..))

theorem Interpreter.PassesCarefully.step {s : Store} {entered : List Value} {m m' : Machine}
    (h : PassesCarefully s ⟨entered, m⟩) (hstep : m.step = some m')
    (hcareful : Moment.Careful ⟨entered, m⟩) : PassesCarefully s ⟨entered, m'⟩ :=
  h.tail ⟨hcareful, .step hstep⟩

/-! ## No cycle comes about -/

namespace Layout

variable {σ : Layout} {s : Store} {v : Value} {p : Role}

theorem At.holds (h : σ.At s p v) : s.Holds v := fun r hr => (h r hr).1

theorem Fits.whole (h : σ.Fits s) (hfree : s.CycleFree) : s.Whole :=
  ⟨hfree, fun r => (h.car r).holds, fun r => (h.cdr r).holds⟩

end Layout

/-- A primitive closes no cycle, unless it changes a pair without care. -/
theorem Store.Whole.cycleFree_primitive {s : Store} (h : s.Whole) {op : Primitive}
    {args : List Value} (hargs : ∀ v ∈ args, s.Holds v)
    (hcareful : ∀ r w, op = .setCar ∨ op = .setCdr → args = [.pair r, w] →
      ¬ s.Reaches w (.pair r)) :
    ((op.apply args).run s).Leaves CycleFree := by
  have heffect := op.effect_apply args s
  generalize (op.apply args).run s = outcome at heffect ⊢
  cases heffect with
  | error | plain | part => exact h.cycleFree
  | cons v w =>
    have hv := hargs v List.mem_cons_self
    have hw := hargs w (List.mem_cons_of_mem _ List.mem_cons_self)
    exact (h.cons hv hw).1.cycleFree
  | list => exact (h.list hargs).1.cycleFree
  | setCar r w =>
    exact h.cycleFree.setCar (hargs _ List.mem_cons_self r rfl) (hcareful r w (.inl rfl) rfl)
  | setCdr r w =>
    exact h.cycleFree.setCdr (hargs _ List.mem_cons_self r rfl) (hcareful r w (.inr rfl) rfl)

namespace Layout.SuitsMoment

variable {σ : Layout} {M M' : Moment} {i : Interpreter}

/-- From a careful moment to the next no cycle comes about. -/
theorem cycleFree_next (h : σ.SuitsMoment M) (hfree : M.machine.store.CycleFree)
    (hcareful : M.Careful) (hnext : i.Next M M') : M'.machine.store.CycleFree := by
  have hwhole := h.suits.fits.whole hfree
  cases hnext with
  | enter => exact (hwhole.load _).1.cycleFree
  | @step entered m m' hstep =>
    obtain ⟨control, pending, s⟩ := m
    have hkept : ∀ {t : Store}, t.pairs = s.pairs → t.CycleFree := hfree.of_pairs_eq
    cases control with
    | evaluate v scope =>
      obtain rfl := Option.some.inj hstep
      exact hkept (Machine.pairs_follow (Move.keepsPairs_evaluate v scope s))
    | apply callee args =>
      obtain rfl := Option.some.inj hstep
      cases callee with
      | closure c => exact hkept (Machine.pairs_follow (Move.keepsPairs_apply c args s))
      | primitive op =>
        refine Machine.follow_leaves hfree ?_
        simp only [Move.apply, satisfies_bind]
        have hargs : ∀ v ∈ args, s.Holds v := fun v hv => (h.suits.value v hv).holds
        exact hwhole.cycleFree_primitive hargs fun r w hop hpair =>
          hcareful op r w hop (by rw [hpair])
    | value v =>
      cases pending with
      | nil => cases hstep
      | cons p waiting =>
        obtain rfl := Option.some.inj hstep
        exact hkept (Machine.pairs_follow (Move.keepsPairs_resume v p s))
    | error e =>
      cases pending with
      | nil => cases hstep
      | cons p waiting =>
        obtain rfl := Option.some.inj hstep
        exact hfree

end Layout.SuitsMoment

theorem Interpreter.PassesCarefully.cycleFree {M : Moment} (h : PassesCarefully .empty M) :
    M.machine.store.CycleFree := by
  induction h with
  | refl => exact Store.cycleFree_of_size_eq_zero rfl
  | tail hM hnext ih =>
    obtain ⟨σ, hσ⟩ := (PassesCarefully.passes hM).suits
    exact hσ.cycleFree_next ih hnext.1 hnext.2

/-- In a careful session everything is acyclic at every moment: what names are bound
    to, arguments, results and expressions. So every value has a rendering, can be
    compared to any other, and taken apart as a list; and no evaluation of an
    expression fails to start. -/
theorem careful_session_acyclic {M : Moment} (hM : Interpreter.PassesCarefully .empty M) :
    (∀ v, M.machine.store.Acyclic v) ∧
    (∀ v, (M.machine.store.render? v).isSome ∧ (M.machine.store.display? v).isSome ∧
      (∀ w, (M.machine.store.equal? v w).isSome) ∧ (M.machine.store.elements? v).isSome) ∧
    ∀ v, M.Expression v →
      ∀ scope, (Move.evaluate v scope).run M.machine.store ≠ .unfinished := by
  have hfree := hM.cycleFree
  refine ⟨hfree.acyclic, hfree.ends, fun v hv scope hstart => ?_⟩
  obtain ⟨σ, hσ⟩ := hM.passes.suits
  obtain ⟨w, -, hnone⟩ := hσ.exists_shows hv hstart
  have hsome := (hfree.ends w).1
  rw [hnone] at hsome
  cases hsome

/-- In `(set-cdr! (quote (1 2)) (quote (3)))` one list becomes the tail of another,
    and no cycle comes about. -/
theorem careful_session_acyclic_set_cdr :
    ∃ M, Interpreter.PassesCarefully .empty M ∧
      M.machine.store.pair ⟨1⟩ = ⟨.integer ⟨1, by decide⟩, .pair ⟨4⟩⟩ ∧
      M.machine.store.Acyclic (.pair ⟨1⟩) ∧ (M.machine.store.render? (.pair ⟨1⟩)).isSome := by
  have hread : readExpression "(set-cdr! (quote (1 2)) (quote (3)))" = .ok
      (.pair (.symbol "set-cdr!") (.pair (.pair (.symbol "quote") (.pair
        (.pair (.integer ⟨1, by decide⟩) (.pair (.integer ⟨2, by decide⟩) .nil)) .nil))
        (.pair (.pair (.symbol "quote") (.pair (.pair (.integer ⟨3, by decide⟩) .nil) .nil))
          .nil))) := by cbv
  have henter := Interpreter.Next.enter (i := (Interpreter.new .empty).1)
    (M := .start (Interpreter.new .empty).2) rfl hread
  have h₀ : Interpreter.PassesCarefully .empty _ :=
    .single ⟨Moment.careful_of_changesPair rfl, henter⟩
  have h₁ := h₀.step rfl (Moment.careful_of_changesPair rfl)
  have h₂ := h₁.step rfl (Moment.careful_of_changesPair rfl)
  have h₃ := h₂.step rfl (Moment.careful_of_changesPair rfl)
  have h₄ := h₃.step rfl (Moment.careful_of_changesPair rfl)
  have h₅ := h₄.step rfl (Moment.careful_of_changesPair rfl)
  have h₆ := h₅.step rfl ?care
  · obtain ⟨hacyclic, hends, -⟩ := careful_session_acyclic h₆
    exact ⟨_, h₆, rfl, hacyclic _, (hends _).1⟩
  · rintro op r w - hcontrol hreach
    obtain ⟨rfl, rfl⟩ : PairRef.mk 1 = r ∧ Value.pair ⟨4⟩ = w := by
      cases hcontrol
      exact ⟨rfl, rfl⟩
    -- In the list `(3)` there is no other pair.
    exact absurd (Store.eq_of_reaches_of_flat (fun _ => Value.noConfusion)
      (fun _ => Value.noConfusion) hreach) (by decide)

/-- So if no text closes a cycle while it is answered, there is none in the store that the
    answers leave behind, and all that is in it can be shown, compared and taken apart. -/
theorem Interpreter.runAll_leaves_acyclic {n : Nat} {texts : List String}
    {answers : List (Except RunError String)} {s : Store}
    (h : (new .empty).1.runAll n texts (new .empty).2 = some (answers, s))
    (hcareful : ∀ given M, given <+: texts →
      (new .empty).1.Through (.start (new .empty).2) given M → M.Careful) :
    (∀ v, s.Acyclic v) ∧ ∀ v, (s.render? v).isSome ∧ (s.display? v).isSome ∧
      (∀ w, (s.equal? v w).isSome) ∧ (s.elements? v).isSome := by
  obtain ⟨M, hM, -, rfl⟩ := runAll_leaves_later (M := .start (new .empty).2) n rfl h
  have hfree := (hM.passesCarefully hcareful).cycleFree
  exact ⟨hfree.acyclic, hfree.ends⟩

end SmallScheme
