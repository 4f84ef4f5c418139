import SmallScheme.Store

/-!
# Computations on a store

A *computation* takes a store and comes to one of three ends: a value or an
error, each with the store as it was left, or none at all within the steps
allowed (`unfinished`). An error keeps what was changed before it; a
computation that never ends has no last store.

Computations are sequenced as a monad, in which an error or an unfinished
computation ends the whole sequence.
-/

namespace SmallScheme

/-- How a computation ends. -/
inductive Outcome (ε α : Type) where
  /-- With a result. -/
  | value (result : α) (store : Store)
  /-- With an error. -/
  | error (e : ε) (store : Store)
  /-- Not within the steps allowed. -/
  | unfinished

/-- A computation with results in `α` and errors in `ε`. -/
def StoreM (ε α : Type) : Type := Store → Outcome ε α

namespace StoreM

variable {ε δ α β : Type}

/-- Carries out a computation. -/
def run (c : StoreM ε α) (s : Store) : Outcome ε α := c s

/-- The computation with the result `a`, which does nothing. -/
protected def pure (a : α) : StoreM ε α := fun s => .value a s

/-- One computation after another. -/
protected def bind (c : StoreM ε α) (f : α → StoreM ε β) : StoreM ε β := fun s =>
  match c s with
  | .value a s => f a s
  | .error e s => .error e s
  | .unfinished => .unfinished

instance : Monad (StoreM ε) where
  pure := StoreM.pure
  bind := StoreM.bind

instance : LawfulMonad (StoreM ε) := LawfulMonad.mk' _
  (fun c => by
    funext s
    change StoreM.bind c (fun a => StoreM.pure (id a)) s = c s
    unfold StoreM.bind
    cases c s <;> rfl)
  (fun _ _ => rfl)
  (fun c _ _ => by
    funext s
    change StoreM.bind (StoreM.bind c _) _ s = StoreM.bind c _ s
    simp only [StoreM.bind]
    cases c s <;> rfl)

/-- Ends with an error. -/
def fail (e : ε) : StoreM ε α := fun s => .error e s

/-- Never ends. -/
def diverge : StoreM ε α := fun _ => .unfinished

/-- Looks something up in the store. -/
def read (f : Store → α) : StoreM ε α := fun s => .value (f s) s

/-- Looks something up in the store that may take for ever to find. -/
def find (f : Store → Option α) : StoreM ε α := fun s =>
  match f s with
  | some a => .value a s
  | none => .unfinished

/-- Changes the store. -/
def modify (f : Store → Store) : StoreM ε Unit := fun s => .value () (f s)

/-- Makes something new in the store. -/
def create (f : Store → α × Store) : StoreM ε α := fun s =>
  match f s with
  | (a, s) => .value a s

/-- Ends with the result or the error given. -/
def ofExcept : Except ε α → StoreM ε α
  | .ok a => pure a
  | .error e => fail e

/-- The same computation with its error put in other terms. -/
def mapError (f : ε → δ) (c : StoreM ε α) : StoreM δ α := fun s =>
  match c s with
  | .value a s => .value a s
  | .error e s => .error (f e) s
  | .unfinished => .unfinished

end StoreM

end SmallScheme
