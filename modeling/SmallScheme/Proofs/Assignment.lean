import SmallScheme.Proofs.Isolation
import SmallScheme.Proofs.Naming.Calls

/-!
# Assignments that have begun

Before an assignment evaluates its expression, it asks whether the name is bound in the
active frame. Only afterwards is the value stored, and the evaluation in between may do
anything: define and assign names in that frame, or call what does so. But nothing takes
a binding away (`Store.KeepsNames`), neither a step of the evaluation machine nor, as it is
made of steps, an evaluation or a call. So the answer is still the same when the value
is there: an assignment that has begun fails only if its expression does
(`Eval.bindings_never_lost`).
-/

namespace SmallScheme

open StoreM

theorem Bindings.names_subset_insert (name : String) (v : Value) (b : Bindings) :
    b.names ⊆ (b.insert name v).names := by
  intro other hother
  rw [mem_names_iff] at hother ⊢
  by_cases h : other = name
  · rw [h, lookup_insert_self]
    rfl
  · rwa [lookup_insert_of_ne v b h]

namespace Store

variable {s t u : Store} {f : FrameRef} {name : String}

/-- Whatever is bound in a frame of `s` is bound there in `t`, if perhaps to another value. -/
def KeepsNames (s t : Store) : Prop :=
  ∀ f, (s.frame f).bindings.names ⊆ (t.frame f).bindings.names

theorem KeepsNames.refl (s : Store) : s.KeepsNames s := fun _ => List.Subset.refl _

theorem KeepsNames.trans (h : s.KeepsNames t) (h' : t.KeepsNames u) : s.KeepsNames u :=
  fun f => List.Subset.trans (h f) (h' f)

/-- A frame that does not change keeps its names, and one that is not there has none. -/
theorem names_subset_of_frame_eq (h : f.index < s.frames.size → t.frame f = s.frame f) :
    (s.frame f).bindings.names ⊆ (t.frame f).bindings.names := by
  by_cases hf : f.index < s.frames.size
  · rw [h hf]
    exact List.Subset.refl _
  · rw [frame_of_le (Nat.le_of_not_lt hf)]
    exact List.nil_subset _

theorem keepsNames_define (s : Store) (f : FrameRef) (name : String) (v : Value) :
    s.KeepsNames (s.define f name v) := by
  intro g
  by_cases hg : g = f
  · subst hg
    by_cases hf : g.index < s.frames.size
    · rw [frame_define_self hf]
      exact Bindings.names_subset_insert name v _
    · exact names_subset_of_frame_eq fun h => absurd h hf
  · exact names_subset_of_frame_eq fun _ => frame_define_of_ne hg

theorem bindsLocally_iff : s.bindsLocally f name ↔ name ∈ (s.frame f).bindings.names :=
  Bindings.mem_names_iff.symm

theorem KeepsNames.bindsLocally (h : s.KeepsNames t) (hname : s.bindsLocally f name) :
    t.bindsLocally f name :=
  bindsLocally_iff.2 (h f (bindsLocally_iff.1 hname))

/-- A frame in which something is bound is there. -/
theorem lt_of_bindsLocally (h : s.bindsLocally f name) : f.index < s.frames.size := by
  by_contra hf
  rw [bindsLocally_iff, frame_of_le (Nat.le_of_not_lt hf)] at h
  exact List.not_mem_nil h

end Store

/-! ## Steps and runs -/

theorem FrameEffect.keepsNames {s t : Store} {old new : List FrameRef}
    (h : FrameEffect s t old new) : s.KeepsNames t := by
  obtain ⟨h, _⟩ | ⟨name, v, _, h, _⟩ | ⟨outer, params, h, _⟩ := h
  · exact fun f => Store.names_subset_of_frame_eq fun _ => Store.frame_congr h f
  · intro f
    rw [Store.frame_congr h]
    exact Store.keepsNames_define s _ name v f
  · -- The only frame that is bound in was not there before.
    refine fun f => Store.names_subset_of_frame_eq fun hf => ?_
    rw [Store.frame_congr h, Store.frame_bind_of_ne, Store.frame_newFrame_of_ne (Nat.ne_of_lt hf)]
    rintro rfl
    exact Nat.lt_irrefl _ hf

namespace Machine

variable {n : Nat} {m m' : Machine} {waiting : List Pending} {o : Outcome EvalError Value}

theorem Reaches.keepsNames (h : m.Reaches m') : m.store.KeepsNames m'.store := by
  induction h with
  | refl => exact .refl _
  | tail _ hstep ih => exact ih.trans (frameEffect_step hstep).keepsNames

theorem Performs.keepsNames (h : m.Performs n waiting o) : o.Leaves fun t => m.store.KeepsNames t :=
  h.satisfies.imp (fun _ _ h => h.keepsNames) fun _ _ h => h.keepsNames

end Machine

namespace Eval

variable {s : Store} {f : FrameRef} {name : String} {r : PairRef} {operands expression : Value}

theorem evaluate_keepsNames (n : Nat) (v : Value) (scope : FrameRef) (s : Store) :
    ((evaluate n v scope).run s).Leaves fun t => s.KeepsNames t :=
  (Machine.performs_evaluate n v scope [] s).keepsNames

theorem call_keepsNames (n : Nat) (c : ClosureRef) (args : List Value) (s : Store) :
    ((call (evaluate n) c args).run s).Leaves fun t => s.KeepsNames t :=
  (Machine.performs_call n c args [] s).keepsNames

/-! ## Assignments -/

/-- What an assignment comes to in the end, if the name is bound still. -/
theorem run_assign {v : Value} (h : s.bindsLocally f name) :
    (assign f name v).run s = .value .nil (s.define f name v) := by
  have hassign : s.assign? f name v = some (s.define f name v) := if_pos h
  simp only [StoreM.run, assign, hassign]

/-- An assignment to a name that is bound is a definition, but for its result. -/
theorem evaluate_assignment (n : Nat)
    (hform : s.pair r = ⟨.symbol SpecialForm.assign.name, operands⟩)
    (hoperands : s.elements? operands = some ([.symbol name, expression], .nil))
    (h : s.bindsLocally f name) :
    (evaluate (n + 1) (.pair r) f).run s = match (evaluate n expression f).run s with
      | .value v t => .value .nil (t.define f name v)
      | .error e t => .error e t
      | .unfinished => .unfinished := by
  have hkept := evaluate_keepsNames n expression f s
  rw [evaluate_special n hform hoperands]
  change (Eval.set (evaluate n) f [.symbol name, expression]).run s = _
  simp only [Eval.set, target, pure_bind, run_bind, run_read, if_pos h]
  rcases ho : (evaluate n expression f).run s with ⟨v, t⟩ | ⟨e, t⟩ | _
  · rw [ho] at hkept
    -- The answer was given in the store `s`, and is asked for in the store `t`.
    exact run_assign (hkept.bindsLocally h)
  · rfl
  · rfl

/-- No evaluation and no call takes a binding away, whether it ends with a value or with
    an error. So if the name of an assignment is bound in the active frame, and the
    expression has a value, the assignment succeeds, with the empty list, and the
    name is bound to this value there; and it fails only with the error of its expression. -/
theorem bindings_never_lost (n : Nat) (s : Store) :
    (∀ v scope, ((evaluate n v scope).run s).Leaves fun t => s.KeepsNames t) ∧
    (∀ c args, ((call (evaluate n) c args).run s).Leaves fun t => s.KeepsNames t) ∧
    ∀ f r operands name expression, s.pair r = ⟨.symbol SpecialForm.assign.name, operands⟩ →
      s.elements? operands = some ([.symbol name, expression], .nil) → s.bindsLocally f name →
      (∀ v t, (evaluate n expression f).run s = .value v t →
        (evaluate (n + 1) (.pair r) f).run s = .value .nil (t.define f name v) ∧
        ((t.define f name v).frame f).bindings.lookup name = some v) ∧
      ∀ e t, (evaluate (n + 1) (.pair r) f).run s = .error e t →
        (evaluate n expression f).run s = .error e t := by
  refine ⟨fun v scope => evaluate_keepsNames n v scope s, fun c args => call_keepsNames n c args s,
    fun f r operands name expression hform hoperands hname => ?_⟩
  rw [evaluate_assignment n hform hoperands hname]
  have hkept := evaluate_keepsNames n expression f s
  refine ⟨fun v t hv => ?_, fun e t he => ?_⟩
  · rw [hv] at hkept ⊢
    exact ⟨rfl, Store.lookup_define_self (Store.lt_of_bindsLocally (hkept.bindsLocally hname))⟩
  · rcases ho : (evaluate n expression f).run s with ⟨v, u⟩ | ⟨e', u⟩ | _ <;> rw [ho] at he
    · cases he
    · exact he
    · cases he

/-- In `(set! x (define x 1))`, the expression binds `x` anew before it is assigned. -/
theorem bindings_never_lost_redefined :
    let s : Store := ⟨#[⟨.symbol "set!", .pair ⟨1⟩⟩, ⟨.symbol "x", .pair ⟨2⟩⟩, ⟨.pair ⟨3⟩, .nil⟩,
      ⟨.symbol "define", .pair ⟨4⟩⟩, ⟨.symbol "x", .pair ⟨5⟩⟩, ⟨.integer .one, .nil⟩], #[],
      #[⟨none, [("x", .nil)]⟩]⟩
    let t := s.define ⟨0⟩ "x" (.integer .one)
    s.bindsLocally ⟨0⟩ "x" ∧ (evaluate 2 (.pair ⟨3⟩) ⟨0⟩).run s = .value (.symbol "x") t ∧
    (evaluate 3 (.pair ⟨0⟩) ⟨0⟩).run s = .value .nil (t.define ⟨0⟩ "x" (.symbol "x")) ∧
    ((t.define ⟨0⟩ "x" (.symbol "x")).frame ⟨0⟩).bindings.lookup "x" = some (.symbol "x") := by
  intro s t
  have hname : s.bindsLocally ⟨0⟩ "x" := by decide
  have hvalue : (evaluate 2 (.pair ⟨3⟩) ⟨0⟩).run s = .value (.symbol "x") t := rfl
  obtain ⟨-, -, hassign⟩ := bindings_never_lost 2 s
  obtain ⟨hsucceeds, -⟩ := hassign ⟨0⟩ ⟨0⟩ (.pair ⟨1⟩) "x" (.pair ⟨3⟩) rfl rfl hname
  exact ⟨hname, hvalue, hsucceeds (.symbol "x") t hvalue⟩

end Eval

end SmallScheme
