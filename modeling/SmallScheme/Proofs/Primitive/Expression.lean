import SmallScheme.Proofs.Naming.Calls
import SmallScheme.Proofs.Primitive.Arithmetic
import SmallScheme.Proofs.Store.Pursuit
import SmallScheme.Proofs.Store.Unfolding

/-!
# Arithmetic expressions

An expression that is put together from integers by the four operations denotes an
integer (`Datum.Denotes`), the one that it would come to if all integers had a fixnum and
a quotient were cut off toward zero once, after the division by the product of all
divisors. Whatever value the evaluation of such an expression has is this integer
(`Eval.gives_of_denotes`): checked operations are exact, and to divide by one divisor
after another, cutting off each time, comes to the same as to divide by their product
(`Primitive.foldl_tdiv`).

So two expressions that denote the same integer have the same value, if they have one each
(`Interpreter.eq_of_denotes`). In particular, several subtrahends may be added up first,
and several divisors may be multiplied (`Interpreter.chains_collapse`).
-/

namespace SmallScheme

open StoreM

/-! ## What expressions denote -/

/-- The value is the integer `z`. -/
def Value.IsInt (v : Value) (z : Int) : Prop := ∃ n : Fixnum, v = .integer n ∧ n.toInt = z

namespace Datum

/-- The form that applies a primitive to operands. -/
def operation (op : Primitive) (operands : List Datum) : Datum := form (symbol op.name) operands

/-- The integer that an arithmetic expression denotes. Division by zero is no exception
    here; it just has no value. -/
inductive Denotes : Datum → Int → Prop
  | integer (n : Fixnum) : Denotes (integer n) n.toInt
  | sum {ds : List Datum} {zs : List Int} : List.Forall₂ Denotes ds zs →
      Denotes (operation .add ds) zs.sum
  | product {ds : List Datum} {zs : List Int} : List.Forall₂ Denotes ds zs →
      Denotes (operation .mul ds) zs.prod
  | negation {d : Datum} {z : Int} : Denotes d z → Denotes (operation .sub [d]) (-z)
  | difference {d d' : Datum} {ds : List Datum} {z z' : Int} {zs : List Int} : Denotes d z →
      Denotes d' z' → List.Forall₂ Denotes ds zs →
      Denotes (operation .sub (d :: d' :: ds)) (z - (z' :: zs).sum)
  | reciprocal {d : Datum} {z : Int} : Denotes d z → Denotes (operation .div [d]) (Int.tdiv 1 z)
  | quotient {d d' : Datum} {ds : List Datum} {z z' : Int} {zs : List Int} : Denotes d z →
      Denotes d' z' → List.Forall₂ Denotes ds zs →
      Denotes (operation .div (d :: d' :: ds)) (z.tdiv (z' :: zs).prod)

theorem forall₂_denotes_integers (ns : List Fixnum) :
    List.Forall₂ Denotes (ns.map integer) (ns.map Fixnum.toInt) := by
  rw [List.forall₂_map_left_iff, List.forall₂_map_right_iff]
  exact List.forall₂_same.2 fun n _ => .integer n

end Datum

/-! ## Checked operations -/

namespace Eval

/-- If the computation has a result, this is the integer `z`, and the store is as it was. -/
def Finds (c : Eval Value) (s : Store) (z : Int) : Prop :=
  (c.run s).Satisfies (fun v t => t = s ∧ v.IsInt z) fun _ _ => True

end Eval

namespace Primitive

open Fixnum Eval

/-- To cut off a quotient before a further division makes no difference. -/
theorem tdiv_tdiv (a b c : Int) : (a.tdiv b).tdiv c = a.tdiv (b * c) := by
  have hnat : ∀ a b c : Nat, ((a : Int).tdiv b).tdiv c = (a : Int).tdiv (b * c) := by
    intro a b c
    rw [← Int.natCast_mul]
    simp only [← Int.ofNat_tdiv, Nat.div_div_eq_div_mul]
  -- The signs can be taken out on both sides.
  obtain ⟨a, rfl | rfl⟩ := a.eq_nat_or_neg <;> obtain ⟨b, rfl | rfl⟩ := b.eq_nat_or_neg <;>
    obtain ⟨c, rfl | rfl⟩ := c.eq_nat_or_neg <;>
    simp only [Int.neg_tdiv, Int.tdiv_neg, Int.neg_mul, Int.mul_neg, neg_neg, hnat]

theorem foldl_tdiv (start : Int) (zs : List Int) :
    zs.foldl Int.tdiv start = start.tdiv zs.prod := by
  induction zs generalizing start with
  | nil => simp
  | cons z zs ih => rw [List.foldl_cons, ih, List.prod_cons, tdiv_tdiv]

theorem Computes.finds {op : Primitive} {ns : List Fixnum} {exact : Int} {fine : Prop}
    (h : op.Computes ns exact fine) (s : Store) : Finds (op.apply (ns.map .integer)) s exact := by
  by_cases hfine : fine
  · obtain ⟨n, hn, hrun⟩ := h.1 hfine
    rw [Finds, hrun]
    exact ⟨rfl, n, rfl, hn⟩
  · rw [Finds, h.2 hfine]
    trivial

theorem Divides.finds {ns : List Fixnum} {start : Int} {divisors : List Int}
    (h : Divides ns start divisors) (s : Store) :
    Finds (div.apply (ns.map .integer)) s (start.tdiv divisors.prod) := by
  by_cases hzero : MeetsZero start divisors
  · rw [Finds, (h.zero s).2 hzero]
    trivial
  by_cases hoverflow : MeetsOverflow start divisors
  · rw [Finds, (h.overflow s).2 hoverflow]
    trivial
  · obtain ⟨n, hn, hrun⟩ := h.exact hzero hoverflow
    rw [Finds, hrun]
    exact ⟨rfl, n, rfl, by rw [hn, foldl_tdiv]⟩

/-- What a primitive is applied to if its operands are all integers. -/
theorem exists_integers {args : List Value} {zs : List Int} (h : List.Forall₂ Value.IsInt args zs) :
    ∃ ns : List Fixnum, args = ns.map .integer ∧ ns.map toInt = zs := by
  induction h with
  | nil => exact ⟨[], rfl, rfl⟩
  | cons hv _ ih =>
    obtain ⟨n, rfl, rfl⟩ := hv
    obtain ⟨ns, rfl, rfl⟩ := ih
    exact ⟨n :: ns, rfl, rfl⟩

end Primitive

/-! ## Evaluation -/

namespace Store

variable {s : Store} {v : Value}

/-- What looks like a proper list can be taken apart like one. -/
theorem Unfolds.exists_elements {ds : List Datum} (h : s.Unfolds v (Datum.chain ds .nil).tree) :
    ∃ items, s.elements? v = some (items, .nil) ∧
      List.Forall₂ (fun item d => s.Unfolds item (Datum.tree d)) items ds := by
  suffices ∃ items, s.elementsUpTo ds.length v = some (items, .nil) ∧
      List.Forall₂ (fun item d => s.Unfolds item (Datum.tree d)) items ds by
    obtain ⟨items, helements, hitems⟩ := this
    exact ⟨items, elements?_eq_some_iff.2 ⟨_, helements⟩, hitems⟩
  induction ds generalizing v with
  | nil =>
    cases h
    exact ⟨[], rfl, .nil⟩
  | cons d ds ih =>
    cases h with
    | @pair r _ _ hcar hcdr =>
      obtain ⟨items, helements, hitems⟩ := ih hcdr
      refine ⟨(s.pair r).car :: items, ?_, .cons hcar hitems⟩
      rw [List.length_cons, elementsUpTo, helements]
      rfl

theorem Unfolds.eq_symbol {name : String} (h : s.Unfolds v (.symbol name)) : v = .symbol name := by
  cases h
  rfl

theorem Unfolds.isListLike {ds : List Datum} (h : s.Unfolds v (Datum.chain ds .nil).tree) :
    v.isListLike := by
  cases ds <;> cases h <;> rfl

end Store

namespace Eval

variable {s : Store} {scope : FrameRef} {op : Primitive} {operands v : Value} {ds : List Datum}
  {zs : List Int} {z : Int}

theorem application_primitive (ev : Evaluator) (hlist : operands.isListLike) :
    application ev (.symbol op.name) operands scope =
      operandValues ev operands scope >>= op.apply := by
  rw [application, if_pos hlist]
  cases op <;> rfl

/-- However an expression like `d` stands in the store, whatever is found for it is the
    integer `z`. -/
def Gives (n : Nat) (s : Store) (scope : FrameRef) (d : Datum) (z : Int) : Prop :=
  ∀ v, s.Unfolds v d.tree → Finds (evaluate n v scope) s z

/-- Operands that come to integers, one after the other. -/
theorem mapM_evaluate {n : Nat} {items : List Value}
    (hitems : List.Forall₂ (fun item d => s.Unfolds item (Datum.tree d)) items ds)
    (hds : List.Forall₂ (Gives n s scope) ds zs) :
    ((items.mapM fun item => evaluate n item scope).run s).Satisfies
      (fun args t => t = s ∧ List.Forall₂ Value.IsInt args zs) fun _ _ => True := by
  induction hitems generalizing zs with
  | nil =>
    cases hds
    exact ⟨rfl, .nil⟩
  | cons hitem _ ih =>
    cases hds with
    | cons hd hds =>
      rw [List.mapM_cons]
      simp only [satisfies_bind, run_pure, Outcome.satisfies_value]
      refine (hd _ hitem).imp ?_ fun _ _ _ => trivial
      rintro v _ ⟨rfl, hv⟩
      refine (ih hds).imp ?_ fun _ _ _ => trivial
      rintro args _ ⟨rfl, hargs⟩
      exact ⟨rfl, .cons hv hargs⟩

/-- An operation on operands that come to integers. -/
theorem gives_operation {n : Nat} (hds : List.Forall₂ (Gives n s scope) ds zs)
    (hop : ∀ ns : List Fixnum, ns.map Fixnum.toInt = zs →
      Finds (op.apply (ns.map .integer)) s z) :
    Gives (n + 1) s scope (.operation op ds) z := by
  intro v hv
  cases hv with
  | @pair r _ _ hcar hcdr =>
    have hpair : s.pair r = ⟨.symbol op.name, (s.pair r).cdr⟩ := by
      rw [← hcar.eq_symbol]
    obtain ⟨items, helements, hitems⟩ := hcdr.exists_elements
    rw [Finds, evaluate_pair n hpair, application_primitive _ hcdr.isListLike, operandValues,
      bind_assoc, run_bind, properList_eq_value_iff.2 helements]
    simp only [satisfies_bind]
    refine (mapM_evaluate hitems hds).imp ?_ fun _ _ _ => trivial
    rintro args _ ⟨rfl, hargs⟩
    obtain ⟨ns, rfl, hns⟩ := Primitive.exists_integers hargs
    exact hop ns hns

/-- The value of an arithmetic expression, if it has one, is what it denotes. -/
theorem gives_of_denotes {d : Datum} (h : d.Denotes z) (n : Nat) : Gives n s scope d z := by
  induction n generalizing d z with
  | zero => exact fun _ _ => trivial
  | succ n ih =>
    have ihs : ∀ {ds zs}, List.Forall₂ Datum.Denotes ds zs →
        List.Forall₂ (Gives n s scope) ds zs := fun h => h.imp fun _ _ => ih
    cases h with
    | integer n =>
      intro v hv
      cases hv
      exact ⟨rfl, n, rfl, rfl⟩
    | sum hds =>
      refine gives_operation (ihs hds) ?_
      rintro ns rfl
      exact (Primitive.computes_sum ns).finds s
    | product hds =>
      refine gives_operation (ihs hds) ?_
      rintro ns rfl
      exact (Primitive.computes_product ns).finds s
    | negation hd =>
      refine gives_operation (.cons (ih hd) .nil) fun ns hns => ?_
      obtain ⟨a, rfl, rfl⟩ := List.map_eq_singleton_iff.1 hns
      exact (Primitive.computes_negation a).finds s
    | difference hd hd' hds =>
      refine gives_operation (.cons (ih hd) (.cons (ih hd') (ihs hds))) fun ns hns => ?_
      obtain ⟨a, _, rfl, rfl, hrest⟩ := List.map_eq_cons_iff.1 hns
      obtain ⟨b, bs, rfl, rfl, rfl⟩ := List.map_eq_cons_iff.1 hrest
      exact (Primitive.computes_difference a b bs).finds s
    | reciprocal hd =>
      refine gives_operation (.cons (ih hd) .nil) fun ns hns => ?_
      obtain ⟨a, rfl, rfl⟩ := List.map_eq_singleton_iff.1 hns
      simpa using (Primitive.divides_reciprocal a).finds s
    | quotient hd hd' hds =>
      refine gives_operation (.cons (ih hd) (.cons (ih hd') (ihs hds))) fun ns hns => ?_
      obtain ⟨a, _, rfl, rfl, hrest⟩ := List.map_eq_cons_iff.1 hns
      obtain ⟨b, bs, rfl, rfl, rfl⟩ := List.map_eq_cons_iff.1 hrest
      exact (Primitive.divides_quotient a b bs).finds s

end Eval

namespace Interpreter

variable {i j : Interpreter} {n m : Nat} {s s' t t' : Store} {d e : Datum} {v w : Value} {z : Int}

theorem isInt_of_denotes (hd : d.Denotes z) (h : (i.evaluate n d).run s = .value v s') :
    v.IsInt z := by
  have hgives : ((i.evaluate n d).run s).Satisfies
      (fun v t => t = (s.load d).2 ∧ v.IsInt z) fun _ _ => True :=
    Eval.gives_of_denotes hd n _ (s.unfolds_load d)
  rw [h] at hgives
  exact hgives.2

/-- Expressions that denote the same integer have the same value. -/
theorem eq_of_denotes (hd : d.Denotes z) (he : e.Denotes z)
    (h : (i.evaluate n d).run s = .value v s') (h' : (j.evaluate m e).run t = .value w t') :
    v = w := by
  obtain ⟨a, rfl, ha⟩ := isInt_of_denotes hd h
  obtain ⟨b, rfl, hb⟩ := isInt_of_denotes he h'
  rw [Fixnum.eq_of_toInt_eq (ha.trans hb.symm)]

/-- To subtract several integers is to subtract their sum, and to divide by several
    integers is to divide by their product, wherever both ways come to a value. -/
theorem chains_collapse (a : Fixnum) {bs : List Fixnum} (hbs : bs ≠ []) :
    ((i.evaluate n (.operation .sub (.integer a :: bs.map .integer))).run s = .value v s' →
      (j.evaluate m (.operation .sub [.integer a, .operation .add (bs.map .integer)])).run t =
        .value w t' →
      v = w ∧ v.IsInt (a.toInt - (bs.map Fixnum.toInt).sum)) ∧
    ((i.evaluate n (.operation .div (.integer a :: bs.map .integer))).run s = .value v s' →
      (j.evaluate m (.operation .div [.integer a, .operation .mul (bs.map .integer)])).run t =
        .value w t' →
      v = w ∧ v.IsInt (a.toInt.tdiv (bs.map Fixnum.toInt).prod)) := by
  obtain ⟨b, bs, rfl⟩ := List.exists_cons_of_ne_nil hbs
  have hrest := Datum.forall₂_denotes_integers bs
  constructor
  · have hchain := Datum.Denotes.difference (.integer a) (.integer b) hrest
    have hsum := Datum.Denotes.difference (.integer a)
      (.sum (Datum.forall₂_denotes_integers (b :: bs))) .nil
    rw [List.sum_singleton] at hsum
    exact fun h h' => ⟨eq_of_denotes hchain hsum h h', isInt_of_denotes hchain h⟩
  · have hchain := Datum.Denotes.quotient (.integer a) (.integer b) hrest
    have hproduct := Datum.Denotes.quotient (.integer a)
      (.product (Datum.forall₂_denotes_integers (b :: bs))) .nil
    rw [List.prod_singleton] at hproduct
    exact fun h h' => ⟨eq_of_denotes hchain hproduct h h', isInt_of_denotes hchain h⟩

/-- A negative dividend, and divisors of either sign. -/
theorem chains_collapse_signs :
    [(⟨7, by decide⟩ : Fixnum), ⟨-3, by decide⟩] ≠ [] ∧
    (∃ s', ((new .empty).1.evaluate 2 (.operation .div [.integer ⟨-100, by decide⟩,
      .integer ⟨7, by decide⟩, .integer ⟨-3, by decide⟩])).run (new .empty).2 =
        .value (.integer ⟨4, by decide⟩) s') ∧
    (∃ t', ((new .empty).1.evaluate 3 (.operation .div [.integer ⟨-100, by decide⟩,
      .operation .mul [.integer ⟨7, by decide⟩, .integer ⟨-3, by decide⟩]])).run (new .empty).2 =
        .value (.integer ⟨4, by decide⟩) t') ∧
    (Value.integer ⟨4, by decide⟩).IsInt ((-100 : Int).tdiv ([7, -3] : List Int).prod) := by
  have hne : [(⟨7, by decide⟩ : Fixnum), ⟨-3, by decide⟩] ≠ [] := by decide
  refine ⟨hne, ⟨_, rfl⟩, ⟨_, rfl⟩, ?_⟩
  exact ((chains_collapse (i := (new .empty).1) (j := (new .empty).1) (n := 2) (m := 3)
    (s := (new .empty).2) (t := (new .empty).2) ⟨-100, by decide⟩ hne).2 rfl rfl).2

end Interpreter

end SmallScheme
