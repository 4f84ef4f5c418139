import SmallScheme.Proofs.Machine.Adequacy

/-!
# Levels enough

An evaluation that comes to an end within some number of levels comes to the same end
within any number that is large enough (`Eval.eventually_evaluate_eq`): the evaluation
machine, which knows no levels, has only one end. So there is an evaluator that always
has levels enough (`Eval.unbounded`), and does not end only where no number of levels
would do.

Numbers of levels get in the way where two expressions are compared that are nested to
different depths, since each then evaluates the same part within another number. The
unbounded evaluator does away with them: its expressions evaluate what is in them
with the same evaluator (`Eval.expression_unbounded`).
-/

namespace SmallScheme

open StoreM Filter

variable {ε α β : Type}

/-! ## Computations that settle -/

/-- From every store, the computations `c n` come to the end of `d` for all `n` that are
    large enough. -/
def StoreM.Settles (c : Nat → StoreM ε α) (d : StoreM ε α) : Prop :=
  ∀ s, ∀ᶠ n in atTop, (c n).run s = d.run s

namespace StoreM

variable {c : Nat → StoreM ε α} {d d' : StoreM ε α}

theorem settles_const (d : StoreM ε α) : Settles (fun _ => d) d :=
  fun _ => .of_forall fun _ => rfl

theorem Settles.unique (h : Settles c d) (h' : Settles c d') : d = d' := by
  funext s
  obtain ⟨n, hd, hd'⟩ := ((h s).and (h' s)).exists
  exact hd.symm.trans hd'

theorem Settles.succ (h : Settles c d) : Settles (fun n => c (n + 1)) d :=
  fun s => (tendsto_add_atTop_nat 1).eventually (h s)

theorem Settles.bind {f : Nat → α → StoreM ε β} {g : α → StoreM ε β} (h : Settles c d)
    (hf : ∀ a, Settles (fun n => f n a) (g a)) : Settles (fun n => c n >>= f n) (d >>= g) := by
  intro s
  have hrest : ∀ᶠ n in atTop, (d >>= f n).run s = (d >>= g).run s := by
    simp only [run_bind]
    rcases d.run s with ⟨a, t⟩ | ⟨e, t⟩ | -
    · exact hf a t
    · exact .of_forall fun _ => rfl
    · exact .of_forall fun _ => rfl
  filter_upwards [h s, hrest] with n hn hrest
  rw [← hrest, run_bind, run_bind, hn]

theorem settles_mapM {γ : Type} {f : Nat → γ → StoreM ε α} {g : γ → StoreM ε α}
    (h : ∀ x, Settles (fun n => f n x) (g x)) (xs : List γ) :
    Settles (fun n => xs.mapM (f n)) (xs.mapM g) := by
  induction xs with
  | nil => exact settles_const _
  | cons x xs ih =>
    simp only [List.mapM_cons]
    exact (h x).bind fun _ => ih.bind fun _ => settles_const _

theorem settles_foldlM {γ : Type} {f : Nat → α → γ → StoreM ε α} {g : α → γ → StoreM ε α}
    (h : ∀ a x, Settles (fun n => f n a x) (g a x)) (a : α) (xs : List γ) :
    Settles (fun n => xs.foldlM (f n) a) (xs.foldlM g a) := by
  induction xs generalizing a with
  | nil => exact settles_const _
  | cons x xs ih =>
    simp only [List.foldlM_cons]
    exact (h a x).bind ih

end StoreM

/-! ## Evaluation without a bound -/

namespace Machine

/-- The end to which a machine has come that evaluated an expression. -/
def outcome (m : Machine) : Outcome EvalError Value :=
  match m.control, m.pending with
  | .value v, [] => .value v m.store
  | .error e, [] => .error e m.store
  | _, _ => .unfinished

theorem Lasts.of_le {n k : Nat} {m : Machine} (hnk : n ≤ k) (h : m.Lasts k) : m.Lasts n := by
  induction hnk with
  | refl => exact h
  | step _ ih => exact ih h.pred

end Machine

namespace Eval

section Levels

variable {n : Nat} {v : Value} {scope : FrameRef} {s : Store}

/-- Where an evaluation has an end, the machine comes to it and stops. -/
theorem exists_reaches (h : (evaluate n v scope).run s ≠ .unfinished) :
    ∃ m, Machine.Reaches ⟨.evaluate v scope, [], s⟩ m ∧ m.Ended ∧
      m.outcome = (evaluate n v scope).run s := by
  have hp := Machine.performs_evaluate n v scope [] s
  rcases ho : (evaluate n v scope).run s with ⟨w, t⟩ | ⟨e, t⟩ | - <;> rw [ho] at hp
  · exact ⟨_, hp, rfl, rfl⟩
  · exact ⟨_, hp, rfl, rfl⟩
  · exact absurd ho h

/-- An evaluation that has an end has it whenever there are levels enough. -/
theorem eventually_evaluate_eq (h : (evaluate n v scope).run s ≠ .unfinished) :
    ∀ᶠ k in atTop, (evaluate k v scope).run s = (evaluate n v scope).run s := by
  obtain ⟨m, hm, hended, houtcome⟩ := exists_reaches h
  -- As many levels as the machine can make steps are enough.
  obtain ⟨bound, hbound⟩ := hm.not_lasts hended
  filter_upwards [eventually_ge_atTop bound] with k hk
  have hends : (evaluate k v scope).run s ≠ .unfinished := fun hunfinished => hbound <| by
    have hp := Machine.performs_evaluate k v scope [] s
    rw [hunfinished] at hp
    exact Machine.Lasts.of_le hk hp
  obtain ⟨m', hm', hended', houtcome'⟩ := exists_reaches hends
  obtain rfl := hm.unique hm' hended hended'
  exact houtcome'.symm.trans houtcome

end Levels

open Classical in
/-- Evaluation with as many levels as it takes. -/
noncomputable def unbounded : Evaluator := fun v scope s =>
  if h : ∃ n, (evaluate n v scope).run s ≠ .unfinished then
    (evaluate h.choose v scope).run s
  else .unfinished

theorem settles_evaluate (v : Value) (scope : FrameRef) :
    Settles (fun n => evaluate n v scope) (unbounded v scope) := by
  intro s
  change ∀ᶠ n in atTop, (evaluate n v scope).run s = unbounded v scope s
  unfold unbounded
  split
  · rename_i h
    exact eventually_evaluate_eq h.choose_spec
  · rename_i h
    exact .of_forall fun n => of_not_not fun hn => h ⟨n, hn⟩

theorem settles_evaluateWhile (scope : FrameRef) (goesOn : Value → Bool) (last : Value)
    (forms : List Value) :
    Settles (fun n => evaluateWhile (evaluate n) scope goesOn last forms)
      (evaluateWhile unbounded scope goesOn last forms) := by
  induction forms generalizing last with
  | nil => exact settles_const _
  | cons form forms ih =>
    refine (settles_evaluate form scope).bind fun v => ?_
    split
    · exact ih v
    · exact settles_const _

end Eval

open Eval

theorem Control.settles_meaning (control : Control) :
    Settles (fun n => control.meaning (Eval.evaluate n)) (control.meaning unbounded) := by
  rcases control with ⟨v, scope⟩ | ⟨callee, args⟩ | v | e
  · exact settles_evaluate v scope
  · rcases callee with op | c
    · exact settles_const _
    · refine (settles_const _).bind fun closure => ?_
      split
      · refine (settles_const _).bind fun scope => (settles_const _).bind fun _ => ?_
        exact settles_foldlM (fun _ form => settles_evaluate form scope) _ _
      · exact settles_const _
  · exact settles_const _
  · exact settles_const _

theorem Pending.settles_meaning (p : Pending) (v : Value) :
    Settles (fun n => p.meaning (Eval.evaluate n) v) (p.meaning unbounded v) := by
  rcases p with ⟨callee, scope, values, forms⟩ | ⟨scope, forms⟩ | ⟨scope, name⟩ | ⟨scope, name⟩ |
    ⟨scope, consequent, alternative⟩ | ⟨scope, goesOn, forms⟩
  · exact (settles_mapM (fun form => settles_evaluate form scope) forms).bind fun others =>
      Control.settles_meaning _
  · exact settles_foldlM (fun _ form => settles_evaluate form scope) _ _
  · exact settles_const _
  · exact settles_const _
  · simp only [Pending.meaning]
    split
    · split
      · rcases alternative with - | alternative
        · exact settles_const _
        · exact settles_evaluate alternative scope
      · exact settles_evaluate consequent scope
    · exact settles_const _
  · simp only [Pending.meaning]
    split
    · exact settles_evaluateWhile scope goesOn v forms
    · exact settles_const _

theorem Move.settles_meaning (move : Move) :
    Settles (fun n => move.meaning (Eval.evaluate n)) (move.meaning unbounded) := by
  have hpending : ∀ (ps : List Pending) (c : Nat → Eval Value) (d : Eval Value), Settles c d →
      Settles (fun n => ps.foldl (fun c p => c >>= fun v => p.meaning (Eval.evaluate n) v) (c n))
        (ps.foldl (fun c p => c >>= fun v => p.meaning unbounded v) d) := by
    intro ps
    induction ps with
    | nil => exact fun _ _ h => h
    | cons p ps ih => exact fun c d h => ih _ _ (h.bind p.settles_meaning)
  exact hpending move.2 _ _ move.1.settles_meaning

/-- Unbounded evaluation of an expression is unbounded evaluation of what is in it. -/
theorem Eval.expression_unbounded (v : Value) (scope : FrameRef) :
    expression unbounded v scope = unbounded v scope := by
  refine Settles.unique (c := fun n => evaluate (n + 1) v scope) ?_ (settles_evaluate v scope).succ
  simp only [evaluate, Move.expression_eq]
  exact (settles_const _).bind Move.settles_meaning

end SmallScheme
