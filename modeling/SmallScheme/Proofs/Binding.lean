import SmallScheme.Proofs.Isolation
import SmallScheme.Proofs.Naming.Calls

/-!
# Bound names

A name reads back what it is bound to (`Eval.bound_names_read_back`): after a definition or an
assignment, the name evaluates to the value that was found for the expression; and so does a
parameter in the frame of a call, to the argument, if it is named only once.

For the binding any symbol will do, but `#t` and `#f` are no variables. They can be bound like
other names, and evaluate to themselves all the same (`Eval.reads_literal`); so what is said
here is not true of them (`Eval.boolean_not_read_back`).
-/

namespace SmallScheme

open StoreM

namespace Store

variable {s : Store} {f : FrameRef} {name : String} {v : Value} {entries : Bindings}

theorem lookup_bind_of_not_mem (h : name ∉ entries.map Prod.fst) :
    ((s.bind f entries).frame f).bindings.lookup name = (s.frame f).bindings.lookup name := by
  induction entries generalizing s with
  | nil => rfl
  | cons entry entries ih =>
    obtain ⟨hentry, hentries⟩ := not_or.1 (mt List.mem_cons.2 h)
    exact (ih hentries).trans (lookup_define_of_ne hentry)

end Store

namespace Eval

variable {s t : Store} {f : FrameRef} {name : String} {v w : Value}

/-- In the frame `f`, the name evaluates to `v`, and this changes nothing. -/
def Reads (s : Store) (f : FrameRef) (name : String) (v : Value) : Prop :=
  ∀ n, (evaluate (n + 1) (.symbol name) f).run s = .value v s

theorem isBoolean_symbol : (Value.symbol name).isBoolean ↔ name ∈ ["#t", "#f"] := by
  simp [Value.isBoolean, Value.ofBool]

/-- A name bound in a frame reads as its value there. -/
theorem reads_of_lookup (hname : name ∉ ["#t", "#f"])
    (h : (s.frame f).bindings.lookup name = some v) : Reads s f name v := by
  intro n
  rw [evaluate, expression, if_neg (mt isBoolean_symbol.1 hname), run_bind, run_read,
    Store.lookup?_of_local h]
  rfl

/-- Truth values are never looked up. -/
theorem reads_literal (hname : name ∈ ["#t", "#f"]) (s : Store) (f : FrameRef) :
    Reads s f name (.symbol name) := by
  intro n
  rw [evaluate, expression, if_pos (isBoolean_symbol.2 hname), run_pure]

/-! ## Definitions and assignments -/

/-- Evaluation takes no frame away. -/
theorem evaluate_has_frame (n : Nat) (v : Value) (scope : FrameRef) (hf : s.Has (.frame f)) :
    ((evaluate n v scope).run s).Leaves fun t => t.Has (.frame f) :=
  (Machine.performs_evaluate n v scope [] s).satisfies.imp
    (fun _ _ h => (Machine.Reaches.outer_eq h hf).1) fun _ _ h => (Machine.Reaches.outer_eq h hf).1

/-- A definition or assignment that succeeds has found a value, and the name is bound to
    this in the end. -/
theorem exists_value_of_binding {n : Nat} {form : SpecialForm} {expression : Value}
    (hform : form ∈ [SpecialForm.define, .assign]) (hf : s.Has (.frame f))
    (h : (form.apply (evaluate n) f [.symbol name, expression]).run s = .value w t) :
    ∃ v u, (evaluate n expression f).run s = .value v u ∧
      (t.frame f).bindings.lookup name = some v := by
  have hhas := evaluate_has_frame n expression f hf
  rcases List.mem_pair.1 hform with rfl | rfl
  · change (Eval.define (evaluate n) f [.symbol name, expression]).run s = _ at h
    simp only [Eval.define, target, pure_bind, run_bind] at h
    rcases ho : (evaluate n expression f).run s with ⟨v, u⟩ | ⟨e, u⟩ | _ <;> rw [ho] at h hhas
    · cases h
      exact ⟨v, u, rfl, Store.lookup_define_self hhas⟩
    · cases h
    · cases h
  · change (Eval.set (evaluate n) f [.symbol name, expression]).run s = _ at h
    simp only [Eval.set, target, pure_bind, run_bind, run_read] at h
    split at h
    · rcases ho : (evaluate n expression f).run s with ⟨v, u⟩ | ⟨e, u⟩ | _ <;>
        simp only [run_bind, ho] at h <;> rw [ho] at hhas
      · have hassign := assign_satisfies (s := u) f name v
        rw [h] at hassign
        obtain ⟨-, rfl⟩ := hassign
        exact ⟨v, u, rfl, Store.lookup_define_self hhas⟩
      · cases h
      · cases h
    · cases h

/-! ## Calls -/

/-- A call with as many arguments as there are parameters evaluates the body in a new frame,
    in which the parameters are bound. -/
theorem run_call (ev : Evaluator) {c : ClosureRef} {args : List Value}
    (hargs : (s.closure c).params.length = args.length) :
    (call ev c args).run s = (body ev ⟨s.frames.size⟩ (s.closure c).body).run
      ((s.newFrame (some (s.closure c).scope)).2.bind ⟨s.frames.size⟩
        ((s.closure c).params.zip args)) := by
  simp only [call, run_bind, run_read, if_pos hargs]
  rfl

/-- A value is found under its name, if no other one is given this name. -/
theorem lookup_bind_zip {names : List String} {values : List Value} {i : Nat}
    (hf : s.Has (.frame f)) (hname : names[i]? = some name) (honce : names.count name = 1)
    (hv : values[i]? = some v) :
    ((s.bind f (names.zip values)).frame f).bindings.lookup name = some v := by
  induction names generalizing s values i with
  | nil => cases hname
  | cons first names ih =>
    obtain ⟨w, values, rfl⟩ := List.exists_cons_of_ne_nil (l := values) (by rintro rfl; cases hv)
    cases i with
    | zero =>
      cases hname
      cases hv
      have hlater : name ∉ (names.zip values).map Prod.fst := by
        intro hmem
        obtain ⟨⟨other, _⟩, hentry, heq⟩ := List.mem_map.1 hmem
        have hpos : 0 < names.count other := List.count_pos_iff.2 (List.of_mem_zip hentry).1
        obtain rfl : other = name := heq
        rw [List.count_cons_self] at honce
        omega
      exact (Store.lookup_bind_of_not_mem hlater).trans (Store.lookup_define_self hf)
    | succ i =>
      have hpos : 0 < names.count name := List.count_pos_iff.2 (List.mem_of_getElem? hname)
      rw [List.count_cons] at honce
      have hhas : f.index < (s.define f first w).frames.size := by
        rw [Store.size_frames_define]
        exact hf
      exact ih hhas hname (by omega) hv

/-! ## Reading back -/

/-- A definition or assignment that succeeds has found a value for its expression, and from
    then on the name reads as this value in the frame. A call with as many arguments as there
    are parameters evaluates the body of the closure in a new frame, in which each parameter
    that is named once reads as its argument. All this is so for every name that is not one of
    a truth value. -/
theorem bound_names_read_back (s : Store) :
    (∀ f, s.Has (.frame f) → ∀ form ∈ [SpecialForm.define, .assign],
      ∀ r operands name expression, name ∉ ["#t", "#f"] →
        s.pair r = ⟨.symbol form.name, operands⟩ →
        s.elements? operands = some ([.symbol name, expression], .nil) →
        ∀ n w t, (evaluate (n + 1) (.pair r) f).run s = .value w t →
          ∃ v u, (evaluate n expression f).run s = .value v u ∧ Reads t f name v) ∧
    (∀ ev c args, (s.closure c).params.length = args.length → ∃ g t,
      ¬s.Has (.frame g) ∧ t.Has (.frame g) ∧ (t.frame g).outer = some (s.closure c).scope ∧
      (call ev c args).run s = (body ev g (s.closure c).body).run t ∧
      ∀ (i : Nat) name v, name ∉ ["#t", "#f"] → (s.closure c).params[i]? = some name →
        (s.closure c).params.count name = 1 → args[i]? = some v → Reads t g name v) := by
  refine ⟨fun f hf form hform r operands name expression hname hpair hoperands n w t h => ?_,
    fun ev c args hargs => ?_⟩
  · rw [evaluate_special n hpair hoperands] at h
    obtain ⟨v, u, hv, hlookup⟩ := exists_value_of_binding hform hf h
    exact ⟨v, u, hv, reads_of_lookup hname hlookup⟩
  · have hnew : s.frames.size < (s.newFrame (some (s.closure c).scope)).2.frames.size := by
      rw [Store.size_frames_newFrame]
      exact Nat.lt_succ_self _
    refine ⟨⟨s.frames.size⟩, _, Nat.lt_irrefl _, ?_, ?_, run_call ev hargs,
      fun i name v hname hi honce hv => ?_⟩
    · exact hnew.trans_eq Store.size_frames_bind.symm
    · rw [Store.outer_frame_bind, Store.frame_newFrame_self]
    · exact reads_of_lookup hname (lookup_bind_zip hnew hi honce hv)

/-- The definition of `x`, and a call of a closure with two parameters of the same name and
    one of another. -/
theorem bound_names_read_back_call :
    let s : Store := ⟨#[⟨.symbol "define", .pair ⟨1⟩⟩, ⟨.symbol "x", .pair ⟨2⟩⟩,
      ⟨.integer .one, .nil⟩], #[⟨["x", "y", "x"], [.symbol "y"], ⟨0⟩⟩], #[⟨none, []⟩]⟩
    let t := s.define ⟨0⟩ "x" (.integer .one)
    let args : List Value := [.nil, .integer .one, .nil]
    s.Has (.frame ⟨0⟩) ∧ (evaluate 2 (.pair ⟨0⟩) ⟨0⟩).run s = .value (.symbol "x") t ∧
    (s.closure ⟨0⟩).params.length = args.length ∧
    (∃ v u, (evaluate 1 (.integer .one) ⟨0⟩).run s = .value v u ∧ Reads t ⟨0⟩ "x" v) ∧
    ∃ g u, (call (evaluate 1) ⟨0⟩ args).run s = (body (evaluate 1) g [.symbol "y"]).run u ∧
      Reads u g "y" (.integer .one) := by
  intro s t args
  obtain ⟨hbinding, hcall⟩ := bound_names_read_back s
  obtain ⟨g, u, -, -, -, hrun, hreads⟩ := hcall (evaluate 1) ⟨0⟩ args rfl
  exact ⟨by decide, rfl, rfl,
    hbinding ⟨0⟩ (by decide) .define (by decide) ⟨0⟩ (.pair ⟨1⟩) "x" (.integer .one) (by decide)
      rfl rfl 1 (.symbol "x") t rfl,
    g, u, hrun, hreads 1 "y" (.integer .one) (by decide) rfl (by decide) rfl⟩

/-- After `(define #t 1)`, which succeeds, `#t` is still itself. -/
theorem boolean_not_read_back :
    ¬∀ (s : Store) (f : FrameRef), s.Has (.frame f) → ∀ r operands name expression,
      s.pair r = ⟨.symbol SpecialForm.define.name, operands⟩ →
      s.elements? operands = some ([.symbol name, expression], .nil) →
      ∀ n w t, (evaluate (n + 1) (.pair r) f).run s = .value w t →
        ∃ v u, (evaluate n expression f).run s = .value v u ∧ Reads t f name v := by
  intro h
  let s : Store := ⟨#[⟨.symbol "define", .pair ⟨1⟩⟩, ⟨.symbol "#t", .pair ⟨2⟩⟩,
    ⟨.integer .one, .nil⟩], #[], #[⟨none, []⟩]⟩
  obtain ⟨v, u, hv, hreads⟩ := h s ⟨0⟩ (by decide) ⟨0⟩ (.pair ⟨1⟩) "#t" (.integer .one) rfl rfl 1
    (.symbol "#t") (s.define ⟨0⟩ "#t" (.integer .one)) rfl
  have hliteral : Reads (s.define ⟨0⟩ "#t" (.integer .one)) ⟨0⟩ "#t" (.symbol "#t") :=
    reads_literal (by decide) _ _
  cases hv
  cases (hreads 0).symm.trans (hliteral 0)

end Eval

end SmallScheme
