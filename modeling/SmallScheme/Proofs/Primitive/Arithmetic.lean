import Mathlib.Algebra.Ring.Int.Defs
import SmallScheme.Proofs.Primitive.Operands

/-!
# Exact arithmetic

Sums, products and differences of fixnums are those of the integers, or none: an
operation that goes from left to right through its operands ends with the exact result
if all the results on the way fit (`Fixnum.foldlM_eq_some_iff`), even those that a later
operand would bring back into range.

A division on the way fails for one of two reasons: the divisor is zero, or the least
fixnum is divided by minus one. Any other quotient fits, as it is no greater than what is
divided (`Fixnum.fits_tdiv_iff`). What a chain of divisions comes to depends on which of
the two is met first (`foldlM_divide`).

Together with what is said about operands of the wrong type or number, this settles the
four operations for all operands (`arithmetic_exact`).
-/

namespace SmallScheme

namespace Fixnum

/-- The integer has a fixnum. -/
def Fits (z : Int) : Prop := -2 ^ 63 ≤ z ∧ z ≤ 2 ^ 63 - 1

instance : DecidablePred Fits := fun _ => inferInstanceAs (Decidable (_ ∧ _))

variable {z : Int} {a b n : Fixnum} {zs : List Fixnum}

theorem fits_toInt (a : Fixnum) : Fits a.toInt := by
  have hrange := a.inRange
  unfold Fits
  omega

theorem eq_zero_iff : a = zero ↔ a.toInt = 0 :=
  ⟨fun h => by rw [h]; rfl, fun h => eq_of_toInt_eq h⟩

theorem ofInt?_eq_some_iff : ofInt? z = some a ↔ a.toInt = z := by
  refine ⟨toInt_of_ofInt?, ?_⟩
  rintro rfl
  exact ofInt?_toInt a

theorem ofInt?_eq_none_iff : ofInt? z = none ↔ ¬Fits z := by
  unfold ofInt? Fits
  split <;> simp <;> omega

/-- An operation that is exact where its result fits, taken from left to right: it has a
    result just if all partial results fit, and this is exact. -/
theorem foldlM_eq_some_iff {op? : Fixnum → Fixnum → Option Fixnum} {step : Int → Int → Int}
    (hop : ∀ a b, op? a b = ofInt? (step a.toInt b.toInt)) :
    zs.foldlM op? a = some n ↔
      (∀ k, Fits (((zs.map toInt).take k).foldl step a.toInt)) ∧
        n.toInt = (zs.map toInt).foldl step a.toInt := by
  induction zs generalizing a with
  | nil =>
    simp only [List.foldlM_nil, List.map_nil, List.take_nil, List.foldl_nil]
    exact ⟨fun h => ⟨fun _ => a.fits_toInt, congrArg toInt (Option.some.inj h).symm⟩,
      fun h => congrArg some (eq_of_toInt_eq h.2.symm)⟩
  | cons z zs ih =>
    -- The first partial result is where the operation starts.
    rw [List.foldlM_cons, hop, ← Nat.and_forall_add_one]
    simp only [List.map_cons, List.take_succ_cons, List.foldl_cons, List.take_zero,
      List.foldl_nil, fits_toInt, true_and]
    cases hstep : ofInt? (step a.toInt z.toInt) with
    | none =>
      refine ⟨nofun, fun h => absurd (h.1 0) ?_⟩
      simpa using ofInt?_eq_none_iff.1 hstep
    | some b =>
      rw [← ofInt?_eq_some_iff.1 hstep]
      exact ih

/-- A quotient that does not fit is that of the least fixnum by minus one. -/
theorem fits_tdiv_iff {d : Int} (hd : d ≠ 0) :
    Fits (a.toInt.tdiv d) ↔ ¬(a.toInt = -2 ^ 63 ∧ d = -1) := by
  have hfits := a.fits_toInt
  unfold Fits at hfits ⊢
  obtain rfl | rfl | htwo : d = 1 ∨ d = -1 ∨ 2 ≤ d.natAbs := by omega
  · rw [Int.tdiv_one]
    omega
  · rw [Int.tdiv_neg, Int.tdiv_one]
    omega
  · have hhalf : (a.toInt.tdiv d).natAbs ≤ a.toInt.natAbs / 2 := by
      rw [Int.natAbs_tdiv]
      exact Nat.div_le_div_left htwo (by decide)
    omega

end Fixnum

namespace Primitive

open Fixnum StoreM

/-! ## Chains of divisions -/

/-- At the divisor of number `k`, the least fixnum is divided by minus one. -/
def OverflowsAt (start : Int) (divisors : List Int) (k : Nat) : Prop :=
  (divisors.take k).foldl Int.tdiv start = -2 ^ 63 ∧ divisors[k]? = some (-1)

/-- A divisor is zero, and no division before it overflows. -/
def MeetsZero (start : Int) (divisors : List Int) : Prop :=
  ∃ k, divisors[k]? = some 0 ∧ ∀ j < k, ¬OverflowsAt start divisors j

/-- A division overflows, and no divisor before it is zero. -/
def MeetsOverflow (start : Int) (divisors : List Int) : Prop :=
  ∃ k, OverflowsAt start divisors k ∧ ∀ j < k, divisors[j]? ≠ some 0

section Divisions

variable {start d : Int} {divisors : List Int}

theorem meetsZero_cons : MeetsZero start (d :: divisors) ↔
    d = 0 ∨ ¬(start = -2 ^ 63 ∧ d = -1) ∧ MeetsZero (start.tdiv d) divisors := by
  unfold MeetsZero OverflowsAt
  rw [← Nat.or_exists_add_one]
  simp only [Nat.forall_lt_succ_left, List.take_succ_cons, List.foldl_cons, List.take_zero,
    List.foldl_nil, List.getElem?_cons_zero, List.getElem?_cons_succ, Option.some_inj,
    Nat.not_lt_zero, false_implies, implies_true, and_true, and_left_comm, exists_and_left]

theorem meetsOverflow_cons : MeetsOverflow start (d :: divisors) ↔
    (start = -2 ^ 63 ∧ d = -1) ∨ d ≠ 0 ∧ MeetsOverflow (start.tdiv d) divisors := by
  unfold MeetsOverflow OverflowsAt
  rw [← Nat.or_exists_add_one]
  simp only [Nat.forall_lt_succ_left, List.take_succ_cons, List.foldl_cons, List.take_zero,
    List.foldl_nil, List.getElem?_cons_zero, List.getElem?_cons_succ, Option.some_inj, ne_eq,
    Nat.not_lt_zero, false_implies, implies_true, and_true, and_left_comm, exists_and_left]

variable {a : Fixnum} {zs : List Fixnum}

theorem divide_of_fits {b : Fixnum} (hb : b.toInt ≠ 0)
    (hfine : ¬(a.toInt = -2 ^ 63 ∧ b.toInt = -1)) :
    ∃ n : Fixnum, n.toInt = a.toInt.tdiv b.toInt ∧ divide a b = .ok n := by
  rw [divide, if_neg (mt eq_zero_iff.1 hb), div?]
  cases hquotient : ofInt? (a.toInt.tdiv b.toInt) with
  | none => exact absurd ((fits_tdiv_iff hb).2 hfine) (ofInt?_eq_none_iff.1 hquotient)
  | some n => exact ⟨n, ofInt?_eq_some_iff.1 hquotient, rfl⟩

theorem divide_of_overflow {b : Fixnum} (ha : a.toInt = -2 ^ 63) (hb : b.toInt = -1) :
    divide a b = .error (.overflow .div) := by
  have hne : b.toInt ≠ 0 := by omega
  rw [divide, if_neg (mt eq_zero_iff.1 hne), div?,
    ofInt?_eq_none_iff.2 fun hfits => (fits_tdiv_iff hne).1 hfits ⟨ha, hb⟩]

/-- How a chain of divisions ends. -/
theorem foldlM_divide (a : Fixnum) (zs : List Fixnum) :
    (zs.foldlM divide a = .error .divisionByZero ↔ MeetsZero a.toInt (zs.map toInt)) ∧
    (zs.foldlM divide a = .error (.overflow .div) ↔ MeetsOverflow a.toInt (zs.map toInt)) ∧
    (¬MeetsZero a.toInt (zs.map toInt) → ¬MeetsOverflow a.toInt (zs.map toInt) →
      ∃ n : Fixnum, n.toInt = (zs.map toInt).foldl Int.tdiv a.toInt ∧
        zs.foldlM divide a = .ok n) := by
  induction zs generalizing a with
  | nil =>
    refine ⟨iff_of_false nofun ?_, iff_of_false nofun ?_, fun _ _ => ⟨a, rfl, rfl⟩⟩
    · rintro ⟨k, hzero, -⟩
      cases hzero
    · rintro ⟨k, ⟨-, hone⟩, -⟩
      cases hone
  | cons z zs ih =>
    rw [List.map_cons, meetsZero_cons, meetsOverflow_cons, List.foldlM_cons, List.foldl_cons]
    by_cases hzero : z.toInt = 0
    · rw [divide, if_pos (eq_zero_iff.2 hzero)]
      refine ⟨iff_of_true rfl (.inl hzero), iff_of_false nofun ?_, fun h => absurd (.inl hzero) h⟩
      rintro (⟨-, hone⟩ | ⟨hne, -⟩)
      · omega
      · exact hne hzero
    by_cases hover : a.toInt = -2 ^ 63 ∧ z.toInt = -1
    · rw [divide_of_overflow hover.1 hover.2]
      refine ⟨iff_of_false nofun ?_, iff_of_true rfl (.inl hover), fun _ h => absurd (.inl hover) h⟩
      rintro (hz | ⟨hne, -⟩)
      · exact hzero hz
      · exact hne hover
    · -- The first division succeeds, and its quotient starts the others.
      obtain ⟨n, hn, hdivide⟩ := divide_of_fits hzero hover
      rw [hdivide, or_iff_right hzero, and_iff_right hover, or_iff_right hover,
        and_iff_right hzero, ← hn]
      exact ih n

end Divisions

/-! ## The four operations -/

/-- For the integers `zs`, the operation results in the integer `exact` if `fine`, and
    overflows otherwise. -/
def Computes (op : Primitive) (zs : List Fixnum) (exact : Int) (fine : Prop) : Prop :=
  (fine → ∃ n : Fixnum, n.toInt = exact ∧
    ∀ s, (op.apply (zs.map .integer)).run s = .value (.integer n) s) ∧
  (¬fine → ∀ s, (op.apply (zs.map .integer)).run s = .error (.overflow op) s)

/-- For the integers `zs`, division results in `start` divided by one divisor after the
    other, if there is no zero among them and no overflow; otherwise, what is met first
    is reported. -/
structure Divides (zs : List Fixnum) (start : Int) (divisors : List Int) : Prop where
  zero : ∀ s, (div.apply (zs.map .integer)).run s = .error .divisionByZero s ↔
    MeetsZero start divisors
  overflow : ∀ s, (div.apply (zs.map .integer)).run s = .error (.overflow .div) s ↔
    MeetsOverflow start divisors
  exact : ¬MeetsZero start divisors → ¬MeetsOverflow start divisors →
    ∃ n : Fixnum, n.toInt = divisors.foldl Int.tdiv start ∧
      ∀ s, (div.apply (zs.map .integer)).run s = .value (.integer n) s

variable {op : Primitive} {zs : List Fixnum}

/-- An operation that goes through its operands with checked steps. -/
theorem computes_of_foldlM {op? : Fixnum → Fixnum → Option Fixnum} {step : Int → Int → Int}
    (hop : ∀ a b, op? a b = ofInt? (step a.toInt b.toInt)) (start : Fixnum) (rest : List Fixnum)
    (hrun : ∀ s, (op.apply (zs.map .integer)).run s =
      (ofExcept (fitting op (rest.foldlM op? start)) : Eval Value).run s) :
    op.Computes zs ((rest.map toInt).foldl step start.toInt)
      (∀ k, Fits (((rest.map toInt).take k).foldl step start.toInt)) := by
  constructor
  · intro hfits
    obtain ⟨n, hn⟩ : ∃ n : Fixnum, n.toInt = (rest.map toInt).foldl step start.toInt := by
      have hall := hfits (rest.map toInt).length
      rw [List.take_length] at hall
      exact ⟨⟨_, by unfold Fits at hall; omega⟩, rfl⟩
    refine ⟨n, hn, fun s => ?_⟩
    rw [hrun, (foldlM_eq_some_iff hop).2 ⟨hfits, hn⟩]
    rfl
  · intro hfits s
    have hnone : rest.foldlM op? start = none := by
      cases hsome : rest.foldlM op? start with
      | none => rfl
      | some n => exact absurd ((foldlM_eq_some_iff hop).1 hsome).1 hfits
    rw [hrun, hnone]
    rfl

theorem run_integer_eq_error_iff {r : Except EvalError Fixnum} {e : EvalError} {s : Store} :
    (ofExcept (Value.integer <$> r) : Eval Value).run s = .error e s ↔ r = .error e := by
  cases r with
  | error e' => exact ⟨fun h => congrArg _ (Outcome.error.inj h).1, fun h => by cases h; rfl⟩
  | ok n => exact iff_of_false nofun nofun

theorem divides_of_foldlM (start : Fixnum) (rest : List Fixnum)
    (hrun : ∀ s, (div.apply (zs.map .integer)).run s =
      (ofExcept (Value.integer <$> rest.foldlM divide start) : Eval Value).run s) :
    Divides zs start.toInt (rest.map toInt) := by
  obtain ⟨hzero, hoverflow, hexact⟩ := foldlM_divide start rest
  refine ⟨fun s => ?_, fun s => ?_, fun hz ho => ?_⟩
  · rw [hrun, run_integer_eq_error_iff, hzero]
  · rw [hrun, run_integer_eq_error_iff, hoverflow]
  · obtain ⟨n, hn, hresult⟩ := hexact hz ho
    refine ⟨n, hn, fun s => ?_⟩
    rw [hrun, hresult]
    rfl

theorem computes_sum (zs : List Fixnum) :
    add.Computes zs (zs.map toInt).sum (∀ k, Fits ((zs.map toInt).take k).sum) := by
  simp only [List.sum_eq_foldl]
  exact computes_of_foldlM (fun _ _ => rfl) .zero zs fun _ => run_integers_bind .add zs _

theorem computes_product (zs : List Fixnum) :
    mul.Computes zs (zs.map toInt).prod (∀ k, Fits ((zs.map toInt).take k).prod) := by
  simp only [List.prod_eq_foldl]
  exact computes_of_foldlM (fun _ _ => rfl) .one zs fun _ => run_integers_bind .mul zs _

theorem computes_negation (n : Fixnum) : sub.Computes [n] (-n.toInt) (Fits (-n.toInt)) := by
  have hcomputes : sub.Computes [n] (([n].map toInt).foldl (· - ·) zero.toInt) _ :=
    computes_of_foldlM (fun _ _ => rfl) .zero [n] fun _ => by
      simp only [List.foldlM_cons, List.foldlM_nil, bind_pure]
      exact run_integers_bind .sub [n] _
  -- The operand is taken from zero, which fits.
  have hfits : (∀ k, Fits (([n].map toInt).take k |>.foldl (· - ·) zero.toInt)) ↔
      Fits (-n.toInt) := by
    rw [← Nat.and_forall_add_one]
    simp [zero, show Fits 0 by decide]
  rw [hfits] at hcomputes
  simpa [zero] using hcomputes

theorem foldl_sub (start : Int) (zs : List Int) : zs.foldl (· - ·) start = start - zs.sum := by
  induction zs generalizing start with
  | nil => simp
  | cons z zs ih => rw [List.foldl_cons, ih, List.sum_cons, Int.sub_sub]

theorem computes_difference (a b : Fixnum) (zs : List Fixnum) :
    sub.Computes (a :: b :: zs) (a.toInt - ((b :: zs).map toInt).sum)
      (∀ k, Fits (a.toInt - (((b :: zs).map toInt).take k).sum)) := by
  simp only [← foldl_sub]
  exact computes_of_foldlM (fun _ _ => rfl) a (b :: zs) fun _ =>
    run_integers_bind .sub (a :: b :: zs) _

theorem divides_reciprocal (n : Fixnum) : Divides [n] 1 [n.toInt] :=
  divides_of_foldlM .one [n] fun _ => by
    simp only [List.foldlM_cons, List.foldlM_nil, bind_pure]
    exact run_integers_bind .div [n] _

theorem divides_quotient (a b : Fixnum) (zs : List Fixnum) :
    Divides (a :: b :: zs) a.toInt ((b :: zs).map toInt) :=
  divides_of_foldlM a (b :: zs) fun _ => run_integers_bind .div (a :: b :: zs) _

/-- The four operations on integers, for operands of any number and type. An operand that
    is no integer is reported first of all. Sum, product and difference are exact if all
    the results on the way from left to right fit, and overflow otherwise. A quotient is
    the exact one, cut off toward zero at each step, unless a zero divisor or an overflow
    is met; what is met first is reported. -/
theorem arithmetic_exact :
    (∀ op ∈ [add, sub, mul, div], ∀ args v s, mistyped? args = some v →
      (op.apply args).run s = .error (.typeMismatch op .integer v.type) s) ∧
    (∀ args, mistyped? args = none → ∃ zs : List Fixnum, args = zs.map .integer) ∧
    (∀ op ∈ [sub, div], ∀ s,
      (op.apply []).run s = .error (.arguments (.primitiveCount op (.atLeast 1) 0)) s) ∧
    (∀ zs, add.Computes zs (zs.map toInt).sum (∀ k, Fits ((zs.map toInt).take k).sum)) ∧
    (∀ zs, mul.Computes zs (zs.map toInt).prod (∀ k, Fits ((zs.map toInt).take k).prod)) ∧
    (∀ n, sub.Computes [n] (-n.toInt) (Fits (-n.toInt))) ∧
    (∀ a b zs, sub.Computes (a :: b :: zs) (a.toInt - ((b :: zs).map toInt).sum)
      (∀ k, Fits (a.toInt - (((b :: zs).map toInt).take k).sum))) ∧
    (∀ n, Divides [n] 1 [n.toInt]) ∧
    (∀ a b zs, Divides (a :: b :: zs) a.toInt ((b :: zs).map toInt)) := by
  refine ⟨?_, fun _ => exists_eq_map_integer, ?_, computes_sum, computes_product,
    computes_negation, computes_difference, divides_reciprocal, divides_quotient⟩
  · intro op hop args v s h
    simp only [List.mem_cons, List.not_mem_nil, or_false] at hop
    obtain rfl | rfl | rfl | rfl := hop <;> exact run_of_mistyped _ h _
  · intro op hop _
    simp only [List.mem_cons, List.not_mem_nil, or_false] at hop
    obtain rfl | rfl := hop <;> rfl

/-- The greatest fixnum, with one added and taken away again; the least one by minus one
    and by zero, in both orders; the empty list among integers. -/
theorem arithmetic_exact_extremes :
    (add.apply [.integer ⟨2 ^ 63 - 1, by decide⟩, .integer .one, .integer ⟨-1, by decide⟩]).run
      .empty = .error (.overflow .add) .empty ∧
    (div.apply [.integer ⟨-2 ^ 63, by decide⟩, .integer ⟨-1, by decide⟩, .integer .zero]).run
      .empty = .error (.overflow .div) .empty ∧
    (div.apply [.integer ⟨-2 ^ 63, by decide⟩, .integer .zero, .integer ⟨-1, by decide⟩]).run
      .empty = .error .divisionByZero .empty ∧
    mul ∈ [add, sub, mul, div] ∧ mistyped? [.integer .one, .nil, .symbol "x"] = some .nil ∧
    (mul.apply [.integer .one, .nil, .symbol "x"]).run .empty =
      .error (.typeMismatch .mul .integer .nil) .empty := by
  obtain ⟨hmistyped, -, -, hadd, -, -, -, -, hdiv⟩ := arithmetic_exact
  refine ⟨(hadd [_, _, _]).2 (fun hfits => ?_) _, ((hdiv _ _ [_]).overflow _).2 ⟨0, ?_⟩,
    ((hdiv _ _ [_]).zero _).2 ⟨0, ?_⟩, by decide, by decide,
    hmistyped mul (by decide) [.integer .one, .nil, .symbol "x"] .nil _ (by decide)⟩
  · exact absurd (hfits 2) (by decide)
  · exact ⟨⟨rfl, rfl⟩, nofun⟩
  · exact ⟨rfl, nofun⟩

end Primitive

end SmallScheme
