import SmallScheme.Store.Chain

/-!
# Chains and the pairs they pass

The elements of a chain depend on the pairs of the store only
(`elements?_congr`), a chain that leads to ever smaller places has an end
(`isSome_elements?`), and what holds along a chain holds of its elements
(`forall_mem_of_elements?`).
-/

namespace SmallScheme.Store

variable {s t : Store}

theorem elementsUpTo_congr (h : s.pairs = t.pairs) : ∀ (n : Nat) (v : Value),
    s.elementsUpTo n v = t.elementsUpTo n v
  | 0, v => by cases v <;> rfl
  | n + 1, .pair r => by
    simp only [elementsUpTo, pair, h, elementsUpTo_congr h n]
  | _ + 1, .nil | _ + 1, .integer _ | _ + 1, .symbol _ | _ + 1, .closure _ => rfl

theorem elements?_congr (h : s.pairs = t.pairs) (v : Value) : s.elements? v = t.elements? v := by
  rw [elements?, elements?, h, elementsUpTo_congr h]

/-- A chain without a pair has no elements. -/
theorem elementsUpTo_of_ne_pair {v : Value} (h : ∀ r, v ≠ .pair r) (n : Nat) :
    s.elementsUpTo n v = some ([], v) := by
  cases v with
  | pair r => exact absurd rfl (h r)
  | nil | integer | symbol | closure => cases n <;> rfl

/-- Only a pair or the empty list can be a proper list. -/
theorem isListLike_of_elements? {v : Value} {items : List Value}
    (h : s.elements? v = some (items, .nil)) : v.isListLike := by
  cases v with
  | nil | pair => rfl
  | integer | symbol | closure => cases h

section Descent

/- On the chain, the pairs lie at ever smaller places. -/
variable {P : PairRef → Prop}
  (hP : ∀ r q, P r → (s.pair r).cdr = .pair q → P q ∧ q.index < r.index)

include hP

theorem isSome_elementsUpTo {n : Nat} {v : Value} (h : ∀ r, v = .pair r → P r ∧ r.index < n) :
    (s.elementsUpTo n v).isSome := by
  induction n generalizing v with
  | zero =>
    rw [elementsUpTo_of_ne_pair fun r hr => Nat.not_lt_zero _ (h r hr).2]
    rfl
  | succ n ih =>
    by_cases hv : ∃ r, v = .pair r
    · obtain ⟨r, rfl⟩ := hv
      obtain ⟨hPr, hr⟩ := h r rfl
      rw [elementsUpTo, Option.isSome_map]
      refine ih fun q hq => ?_
      obtain ⟨hPq, hlt⟩ := hP r q hPr hq
      exact ⟨hPq, Nat.lt_of_lt_of_le hlt (Nat.le_of_lt_succ hr)⟩
    · rw [elementsUpTo_of_ne_pair fun r hr => hv ⟨r, hr⟩]
      rfl

theorem isSome_elements? {v : Value} (h : ∀ r, v = .pair r → P r ∧ r.index < s.pairs.size) :
    (s.elements? v).isSome :=
  isSome_elementsUpTo hP fun r hr => ⟨(h r hr).1, Nat.lt_succ_of_lt (h r hr).2⟩

end Descent

section Along

/- What holds along a chain, and with it of the first component of each pair. -/
variable {P Q : Value → Prop} (h : ∀ r, P (.pair r) → Q (s.pair r).car ∧ P (s.pair r).cdr)

include h

theorem forall_mem_of_elementsUpTo {n : Nat} {v tail : Value} {items : List Value} (hv : P v)
    (he : s.elementsUpTo n v = some (items, tail)) : ∀ item ∈ items, Q item := by
  induction n generalizing v items with
  | zero =>
    cases v with
    | pair r => cases he
    | nil | integer | symbol | closure =>
      obtain ⟨rfl, _⟩ := Prod.mk.inj (Option.some.inj he)
      exact fun _ hmem => absurd hmem List.not_mem_nil
  | succ n ih =>
    cases v with
    | pair r =>
      obtain ⟨⟨rest, _⟩, hrest, heq⟩ := Option.map_eq_some_iff.1 he
      obtain ⟨rfl, rfl⟩ := Prod.mk.inj heq
      obtain ⟨hcar, hcdr⟩ := h r hv
      exact List.forall_mem_cons.2 ⟨hcar, ih hcdr hrest⟩
    | nil | integer | symbol | closure =>
      obtain ⟨rfl, _⟩ := Prod.mk.inj (Option.some.inj he)
      exact fun _ hmem => absurd hmem List.not_mem_nil

theorem forall_mem_of_elements? {v tail : Value} {items : List Value} (hv : P v)
    (he : s.elements? v = some (items, tail)) : ∀ item ∈ items, Q item :=
  forall_mem_of_elementsUpTo h hv he

end Along

end SmallScheme.Store
