import SmallScheme.Eval.Primitive
import SmallScheme.Proofs.Outcome

/-!
# Operands of arithmetic

The primitives on integers look through all their operands before they compute. The
first one that is no integer, if there is one (`Primitive.mistyped?`), is reported,
whatever the others are (`run_of_mistyped`). Otherwise the operands are a list of
integers (`exists_eq_map_integer`), and the primitive goes on with these
(`run_integers_bind`).
-/

namespace SmallScheme

theorem Value.type_eq_integer_iff {v : Value} : v.type = .integer ↔ ∃ n, v = .integer n := by
  cases v with
  | symbol name =>
    rw [type]
    split <;> simp
  | nil | integer | pair | closure => simp [type]

namespace Primitive

open StoreM

/-- The first operand that is no integer. -/
def mistyped? (args : List Value) : Option Value := args.find? fun v => v.type != .integer

variable {args : List Value} {v : Value} {s : Store}

theorem integer_of_type_ne (op : Primitive) (h : v.type ≠ .integer) :
    integer op v = .error (.typeMismatch op .integer v.type) := by
  cases v with
  | integer n => exact absurd rfl h
  | nil | symbol | pair | closure => rfl

theorem mistyped?_map_integer (zs : List Fixnum) : mistyped? (zs.map .integer) = none := by
  simp [mistyped?, Value.type]

/-- Operands all of which are integers. -/
theorem exists_eq_map_integer (h : mistyped? args = none) :
    ∃ zs : List Fixnum, args = zs.map .integer := by
  induction args with
  | nil => exact ⟨[], rfl⟩
  | cons v args ih =>
    obtain ⟨hv, hargs⟩ := List.forall_mem_cons.1 (List.find?_eq_none.1 h)
    obtain ⟨n, rfl⟩ := Value.type_eq_integer_iff.1 (by simpa using hv)
    obtain ⟨zs, rfl⟩ := ih (List.find?_eq_none.2 hargs)
    exact ⟨n :: zs, rfl⟩

theorem integers_map_integer (op : Primitive) (zs : List Fixnum) :
    integers op (zs.map .integer) = .ok zs := by
  induction zs with
  | nil => rfl
  | cons z zs ih =>
    rw [integers] at ih ⊢
    rw [List.map_cons, List.mapM_cons, ih]
    rfl

theorem integers_of_mistyped (op : Primitive) (h : mistyped? args = some v) :
    integers op args = .error (.typeMismatch op .integer v.type) := by
  induction args with
  | nil => cases h
  | cons w args ih =>
    rw [integers] at ih ⊢
    rw [List.mapM_cons]
    by_cases hw : w.type = .integer
    · obtain ⟨n, rfl⟩ := Value.type_eq_integer_iff.1 hw
      rw [ih (by simpa [mistyped?, hw] using h)]
      rfl
    · obtain rfl : w = v := by simpa [mistyped?, hw] using h
      rw [integer_of_type_ne op hw]
      rfl

/-- A mistyped operand is all that is seen of the operands. -/
theorem run_of_mistyped (op : Primitive) (h : mistyped? args = some v)
    (f : List Fixnum → Except EvalError Value) :
    (ofExcept (integers op args >>= f) : Eval Value).run s =
      .error (.typeMismatch op .integer v.type) s := by
  rw [integers_of_mistyped op h]
  rfl

theorem run_integers_bind (op : Primitive) (zs : List Fixnum)
    (f : List Fixnum → Except EvalError Value) :
    (ofExcept (integers op (zs.map .integer) >>= f) : Eval Value).run s =
      (ofExcept (f zs) : Eval Value).run s := by
  rw [integers_map_integer]
  rfl

end Primitive

end SmallScheme
