import Mathlib.Data.List.Chain
import SmallScheme.Proofs.Primitive.Operands

/-!
# Comparisons of any number of operands

A comparison looks at each operand and the next one only. As the orders are transitive,
its answer is about any two operands (`Primitive.Orders.exists_answer`): it is yes just if
each is in order with all that come after it.

So to ask for the reverse order of the operands in reverse is the same question
(`Primitive.Orders.run_reverse`), and operands that nowhere decrease begin with the least
one and end with the greatest one (`Primitive.run_extremes`).
Together with what is said about operands of the wrong type, this settles the five
comparisons for all operands (`Primitive.comparisons_exact`).
-/

namespace SmallScheme

namespace Primitive

open StoreM

/-- The order of integers that a comparison asks for. -/
inductive Orders : Primitive → (Int → Int → Prop) → Prop
  | eq : Orders eq fun a b => a = b
  | lt : Orders lt fun a b => a < b
  | gt : Orders gt fun a b => b < a
  | le : Orders le fun a b => a ≤ b
  | ge : Orders ge fun a b => b ≤ a

/-- Each of the integers is in order with all that come after it. -/
def Ordered (rel : Int → Int → Prop) (zs : List Fixnum) : Prop :=
  zs.Pairwise fun a b => rel a.toInt b.toInt

variable {op op' : Primitive} {rel : Int → Int → Prop} {args : List Value} {v : Value} {s : Store}
  {zs : List Fixnum}

theorem holdsAlong_iff_isChain {test : Fixnum → Fixnum → Bool} :
    holdsAlong test zs ↔ zs.IsChain fun a b => test a b := by
  fun_induction holdsAlong test zs with
  | case1 a b rest ih => rw [Bool.and_eq_true, ih, List.isChain_cons_cons]
  | case2 zs hshort =>
    match zs, hshort with
    | [], _ => simp
    | [a], _ => simp
    | a :: b :: rest, hshort => exact absurd rfl (hshort a b rest)

namespace Orders

theorem trans (h : Orders op rel) {a b c : Int} (hab : rel a b) (hbc : rel b c) : rel a c := by
  cases h <;> omega

/-- A comparison is a test of neighbours. -/
theorem exists_test (h : Orders op rel) : ∃ test : Fixnum → Fixnum → Bool,
    (∀ a b, test a b ↔ rel a.toInt b.toInt) ∧
      ∀ args, op.apply args = ofExcept (compare op test args) := by
  cases h with
  | eq =>
    refine ⟨_, fun a b => ?_, fun _ => rfl⟩
    rw [beq_iff_eq]
    exact ⟨congrArg Fixnum.toInt, Fixnum.eq_of_toInt_eq⟩
  | lt | gt | le | ge => exact ⟨_, fun _ _ => decide_eq_true_iff, fun _ => rfl⟩

/-- The answer is about any two operands, not only about neighbours. -/
theorem exists_answer (h : Orders op rel) (zs : List Fixnum) : ∃ b : Bool, (b ↔ Ordered rel zs) ∧
    ∀ s, (op.apply (zs.map .integer)).run s = .value (.ofBool b) s := by
  obtain ⟨test, htest, happly⟩ := h.exists_test
  have htrans : Trans (fun a b : Fixnum => rel a.toInt b.toInt)
      (fun a b : Fixnum => rel a.toInt b.toInt) fun a b : Fixnum => rel a.toInt b.toInt := ⟨h.trans⟩
  refine ⟨holdsAlong test zs, ?_, fun s => ?_⟩
  · simp only [holdsAlong_iff_isChain, htest, List.isChain_iff_pairwise, Ordered]
  · rw [happly]
    exact run_integers_bind op zs _

theorem run_mistyped (h : Orders op rel) (hargs : mistyped? args = some v) :
    (op.apply args).run s = .error (.typeMismatch op .integer v.type) s := by
  obtain ⟨test, -, happly⟩ := h.exists_test
  rw [happly]
  exact run_of_mistyped op hargs _

/-- The reverse order of the operands in reverse is the same question. -/
theorem run_reverse (h : Orders op rel) (h' : Orders op' fun a b => rel b a) :
    (op.apply args).run s = .value v s ↔ (op'.apply args.reverse).run s = .value v s := by
  cases hargs : mistyped? args with
  | none =>
    obtain ⟨zs, rfl⟩ := exists_eq_map_integer hargs
    obtain ⟨b, hb, hrun⟩ := h.exists_answer zs
    obtain ⟨b', hb', hrun'⟩ := h'.exists_answer zs.reverse
    have hsame : b = b' := Bool.eq_iff_iff.2 (hb.trans (List.pairwise_reverse.symm.trans hb'.symm))
    rw [← List.map_reverse, hrun, hrun', hsame]
  | some w =>
    -- The first operand that is no integer need not be the same, but there is one.
    cases hreverse : mistyped? args.reverse with
    | none =>
      obtain ⟨zs, hzs⟩ := exists_eq_map_integer hreverse
      rw [List.reverse_eq_iff.1 hzs, ← List.map_reverse, mistyped?_map_integer] at hargs
      cases hargs
    | some w' =>
      rw [h.run_mistyped hargs, h'.run_mistyped hreverse]
      exact iff_of_false nofun nofun

end Orders

/-! ## Least and greatest -/

theorem foldl_min_of_le {a : Fixnum} (h : ∀ z ∈ zs, a.toInt ≤ z.toInt) :
    zs.foldl Min.min a = a := by
  induction zs with
  | nil => rfl
  | cons z zs ih =>
    obtain ⟨hz, hzs⟩ := List.forall_mem_cons.1 h
    rw [List.foldl_cons, show Min.min a z = a from if_pos hz, ih hzs]

theorem foldl_max_of_ordered {a : Fixnum} (h : Ordered (· ≤ ·) (a :: zs)) :
    zs.foldl Max.max a = (a :: zs).getLast (List.cons_ne_nil a zs) := by
  induction zs generalizing a with
  | nil => rfl
  | cons z zs ih =>
    obtain ⟨ha, hzs⟩ := List.pairwise_cons.1 h
    rw [List.foldl_cons, show Max.max a z = z from if_pos (ha z List.mem_cons_self), ih hzs,
      List.getLast_cons_cons]

/-- Operands that nowhere decrease begin with the least one and end with the greatest one. -/
theorem run_extremes (h : (le.apply (v :: args)).run s = .value (.ofBool true) s) :
    (min.apply (v :: args)).run s = .value v s ∧
      (max.apply (v :: args)).run s = .value ((v :: args).getLast (List.cons_ne_nil v args)) s := by
  cases hargs : mistyped? (v :: args) with
  | some w =>
    rw [Orders.le.run_mistyped hargs] at h
    cases h
  | none =>
    obtain ⟨_ | ⟨a, zs⟩, hzs⟩ := exists_eq_map_integer hargs
    · cases hzs
    obtain ⟨b, hb, hrun⟩ := Orders.le.exists_answer (a :: zs)
    have hordered : Ordered (· ≤ ·) (a :: zs) := by
      rw [hzs, hrun] at h
      cases b with
      | true => exact hb.1 rfl
      | false => exact absurd (Outcome.value.inj h).1 (by decide)
    have hmin : (min.apply ((a :: zs).map .integer)).run s =
        .value (.integer (zs.foldl Min.min a)) s := run_integers_bind .min (a :: zs) _
    have hmax : (max.apply ((a :: zs).map .integer)).run s =
        .value (.integer (zs.foldl Max.max a)) s := run_integers_bind .max (a :: zs) _
    rw [foldl_min_of_le (List.pairwise_cons.1 hordered).1] at hmin
    rw [foldl_max_of_ordered hordered] at hmax
    obtain ⟨rfl, rfl⟩ := List.cons.inj hzs
    have hlast : ((a :: zs).map Value.integer).getLast (List.cons_ne_nil _ _) =
        .integer ((a :: zs).getLast (List.cons_ne_nil a zs)) := List.getLast_map _
    rw [← hlast] at hmax
    exact ⟨hmin, hmax⟩

/-- The five comparisons, for operands of any number and type. An operand that is no
    integer is reported, whatever the integers before it are like. The answer for integers
    is yes just if each of them is in order with all that come after it. -/
theorem comparisons_exact :
    (∀ op rel, Orders op rel →
      (∀ args v s, mistyped? args = some v →
        (op.apply args).run s = .error (.typeMismatch op .integer v.type) s) ∧
      ∀ zs : List Fixnum, ∃ b : Bool, (b ↔ Ordered rel zs) ∧
        ∀ s, (op.apply (zs.map .integer)).run s = .value (.ofBool b) s) ∧
    (∀ args, mistyped? args = none → ∃ zs : List Fixnum, args = zs.map .integer) ∧
    (∀ args v s, (lt.apply args).run s = .value v s ↔
      (gt.apply args.reverse).run s = .value v s) ∧
    (∀ args v s, (le.apply args).run s = .value v s ↔
      (ge.apply args.reverse).run s = .value v s) ∧
    ∀ v args s, (le.apply (v :: args)).run s = .value (.ofBool true) s →
      (min.apply (v :: args)).run s = .value v s ∧
        (max.apply (v :: args)).run s =
          .value ((v :: args).getLast (List.cons_ne_nil v args)) s :=
  ⟨fun _ _ h => ⟨fun _ _ _ => h.run_mistyped, h.exists_answer⟩,
    fun _ => exists_eq_map_integer, fun _ _ _ => Orders.lt.run_reverse .gt,
    fun _ _ _ => Orders.le.run_reverse .ge, fun _ _ _ => run_extremes⟩

/-- Integers that decrease at first, with the empty list after them or without it; integers
    two of which are the same. -/
theorem comparisons_exact_neighbours :
    Orders lt (· < ·) ∧ mistyped? [.integer .one, .integer .zero, .nil] = some .nil ∧
    (lt.apply [.integer .one, .integer .zero, .nil]).run .empty =
      .error (.typeMismatch .lt .integer .nil) .empty ∧
    (lt.apply [.integer .one, .integer .zero]).run .empty = .value (.ofBool false) .empty ∧
    (le.apply [.integer .zero, .integer .zero, .integer .one]).run .empty =
      .value (.ofBool true) .empty ∧
    (max.apply [.integer .zero, .integer .zero, .integer .one]).run .empty =
      .value (.integer .one) .empty := by
  obtain ⟨horders, -, -, -, hextremes⟩ := comparisons_exact
  obtain ⟨hmistyped, hanswer⟩ := horders lt _ .lt
  refine ⟨.lt, by decide, hmistyped _ .nil _ (by decide), ?_, rfl, ?_⟩
  · obtain ⟨b, hb, hrun⟩ := hanswer [.one, .zero]
    obtain rfl : b = false := by
      cases b with
      | false => rfl
      | true => exact absurd ((List.pairwise_pair.1 (hb.1 rfl))) (by decide)
    exact hrun _
  · exact (hextremes _ _ _ rfl).2

end Primitive

end SmallScheme
