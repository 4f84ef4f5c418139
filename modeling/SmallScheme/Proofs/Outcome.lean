import SmallScheme.Store.Monad

/-!
# How computations end

What `StoreM.run` gives for each way of making a computation, and statements
about all the ends that a computation can come to (`Outcome.Satisfies`): one
condition on the result and the store, another on the error and the store, and
none where the computation does not end. The condition for a sequence is that of
its first part, with the condition for the rest in the place of the result's
(`satisfies_bind`); so a statement about a computation is worked off from its
beginning.
-/

namespace SmallScheme

variable {ε δ α β : Type}

namespace Outcome

/-- With a result, `P` holds of it and the store; with an error, `Q` does. -/
def Satisfies (P : α → Store → Prop) (Q : ε → Store → Prop) : Outcome ε α → Prop
  | value a s => P a s
  | error e s => Q e s
  | unfinished => True

/-- At the end, if there is one, `P` holds of the store. -/
abbrev Leaves (o : Outcome ε α) (P : Store → Prop) : Prop :=
  o.Satisfies (fun _ s => P s) (fun _ s => P s)

@[simp] theorem satisfies_value {P : α → Store → Prop} {Q : ε → Store → Prop} {a : α} {s : Store} :
    (value a s : Outcome ε α).Satisfies P Q ↔ P a s :=
  Iff.rfl

@[simp] theorem satisfies_error {P : α → Store → Prop} {Q : ε → Store → Prop} {e : ε} {s : Store} :
    (error e s : Outcome ε α).Satisfies P Q ↔ Q e s :=
  Iff.rfl

@[simp] theorem satisfies_unfinished {P : α → Store → Prop} {Q : ε → Store → Prop} :
    (unfinished : Outcome ε α).Satisfies P Q ↔ True :=
  Iff.rfl

theorem Satisfies.imp {P P' : α → Store → Prop} {Q Q' : ε → Store → Prop} {o : Outcome ε α}
    (h : o.Satisfies P Q) (hP : ∀ a s, P a s → P' a s) (hQ : ∀ e s, Q e s → Q' e s) :
    o.Satisfies P' Q' := by
  cases o with
  | value a s => exact hP a s h
  | error e s => exact hQ e s h
  | unfinished => trivial

theorem satisfies_of_forall {P : α → Store → Prop} {Q : ε → Store → Prop} (hP : ∀ a s, P a s)
    (hQ : ∀ e s, Q e s) (o : Outcome ε α) : o.Satisfies P Q := by
  cases o with
  | value a s => exact hP a s
  | error e s => exact hQ e s
  | unfinished => trivial

@[simp] theorem satisfies_true (o : Outcome ε α) :
    o.Satisfies (fun _ _ => True) fun _ _ => True :=
  satisfies_of_forall (fun _ _ => trivial) (fun _ _ => trivial) o

end Outcome

namespace StoreM

variable (s : Store)

@[simp] theorem run_pure (a : α) : (pure a : StoreM ε α).run s = .value a s := rfl

@[simp] theorem run_fail (e : ε) : (fail e : StoreM ε α).run s = .error e s := rfl

@[simp] theorem run_read (f : Store → α) : (read f : StoreM ε α).run s = .value (f s) s := rfl

@[simp] theorem run_modify (f : Store → Store) :
    (modify f : StoreM ε Unit).run s = .value () (f s) := rfl

@[simp] theorem run_create (f : Store → α × Store) :
    (create f : StoreM ε α).run s = .value (f s).1 (f s).2 := rfl

theorem run_find (f : Store → Option α) :
    (find f : StoreM ε α).run s = match f s with
      | some a => .value a s
      | none => .unfinished := rfl

theorem run_bind (c : StoreM ε α) (f : α → StoreM ε β) :
    (c >>= f).run s = match c.run s with
      | .value a s => (f a).run s
      | .error e s => .error e s
      | .unfinished => .unfinished := rfl

@[simp] theorem fail_bind (e : ε) (f : α → StoreM ε β) : fail e >>= f = fail e := rfl

theorem run_mapError (f : ε → δ) (c : StoreM ε α) :
    (mapError f c).run s = match c.run s with
      | .value a s => .value a s
      | .error e s => .error (f e) s
      | .unfinished => .unfinished := rfl

section Satisfies

variable {s} {P : α → Store → Prop} {Q : ε → Store → Prop}

@[simp] theorem satisfies_find {f : Store → Option α} :
    ((find f : StoreM ε α).run s).Satisfies P Q ↔ ∀ a, f s = some a → P a s := by
  rw [run_find]
  cases f s <;> simp

@[simp] theorem satisfies_bind {c : StoreM ε α} {f : α → StoreM ε β} {P : β → Store → Prop} :
    ((c >>= f).run s).Satisfies P Q ↔
      (c.run s).Satisfies (fun a s => ((f a).run s).Satisfies P Q) Q := by
  rw [run_bind]
  cases c.run s <;> rfl

@[simp] theorem satisfies_ofExcept {r : Except ε α} :
    ((ofExcept r : StoreM ε α).run s).Satisfies P Q ↔
      match r with
      | .ok a => P a s
      | .error e => Q e s := by
  cases r <;> rfl

end Satisfies

end StoreM

end SmallScheme
