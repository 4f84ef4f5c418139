import Mathlib.Data.Finset.Card
import Mathlib.Data.Nat.Find
import Mathlib.Order.Interval.Finset.Nat
import Mathlib.Tactic.Push
import SmallScheme.Proofs.Store.Chain
import SmallScheme.Proofs.Store.Update
import SmallScheme.Store.Printer

/-!
# The bounds are no bounds

Functions that follow pairs to an end are given a number of steps that is computed
from the number of pairs in the store. It is always enough: if more steps would lead
to an end, these do (`elements?_eq_some_iff`, `writePair_eq_some_iff`). So what such a
function finds does not depend on how many other pairs there are.

The argument is the same each time (`of_depth`). Give every pair from which an end is
reached the least number of steps that this takes. From a pair with the number
`n`, there is a way down through pairs with all the numbers below `n`. These
pairs are different, and only the last of them may be a place where
there is no pair.
-/

namespace SmallScheme.Store

variable {s : Store}

section Depth

/- `P n r` says that `n` steps are enough for the pair `r`. -/
variable {P : Nat → PairRef → Prop}

/-- On the way down, every number of steps occurs. -/
theorem exists_depth (next : ∀ n r, P (n + 2) r → ¬P (n + 1) r → ∃ q, P (n + 1) q ∧ ¬P n q)
    {n : Nat} {r : PairRef} (h : P (n + 1) r) (h' : ¬P n r) {k : Nat} (hk : k ≤ n) :
    ∃ q, P (k + 1) q ∧ ¬P k q := by
  induction n generalizing r with
  | zero =>
    obtain rfl := Nat.le_zero.1 hk
    exact ⟨r, h, h'⟩
  | succ n ih =>
    rcases Nat.lt_or_eq_of_le hk with hlt | rfl
    · obtain ⟨q, hq, hq'⟩ := next n r h h'
      exact ih hq hq' (Nat.le_of_lt_succ hlt)
    · exact ⟨r, h, h'⟩

/-- One step more than there are pairs is enough, if any number is. -/
theorem of_depth (zero : ∀ r, ¬P 0 r) (mono : ∀ m n r, m ≤ n → P m r → P n r)
    (next : ∀ n r, P (n + 2) r → ¬P (n + 1) r → ∃ q, P (n + 1) q ∧ ¬P n q)
    (outside : ∀ r, s.pairs.size ≤ r.index → ∀ n, P n r → P 1 r) {n : Nat} {r : PairRef}
    (h : P n r) : P (s.pairs.size + 1) r := by
  by_contra hbound
  -- Otherwise the least number of steps is beyond the bound.
  obtain ⟨m, hm, hm', hlt⟩ : ∃ m, P (m + 1) r ∧ ¬P m r ∧ s.pairs.size < m := by
    classical
    have hex : ∃ n, P n r := ⟨n, h⟩
    obtain ⟨m, hfind⟩ : ∃ m, Nat.find hex = m + 1 :=
      Nat.exists_eq_succ_of_ne_zero fun hzero => zero r (hzero ▸ Nat.find_spec hex)
    have hspec : P (m + 1) r := hfind ▸ Nat.find_spec hex
    refine ⟨m, hspec, Nat.find_min hex (by omega), ?_⟩
    by_contra hle
    exact hbound (mono _ _ _ (by omega) hspec)
  have hway : ∀ k, ∃ q, k ≤ m → P (k + 1) q ∧ ¬P k q := fun k => by
    by_cases hk : k ≤ m
    · obtain ⟨q, hq⟩ := exists_depth next hm hm' hk
      exact ⟨q, fun _ => hq⟩
    · exact ⟨r, fun hk' => absurd hk' hk⟩
  choose q hq using hway
  have hinside : ∀ k ∈ Finset.Icc 1 m, (q k).index ∈ Finset.range s.pairs.size := fun k hk => by
    obtain ⟨hpos, hle⟩ := Finset.mem_Icc.1 hk
    rw [Finset.mem_range]
    by_contra hout
    exact (hq k hle).2 (mono _ _ _ hpos (outside _ (Nat.le_of_not_lt hout) _ (hq k hle).1))
  have hinj : Set.InjOn (fun k => (q k).index) (Finset.Icc 1 m) := fun i hi j hj hij => by
    have hle := fun {k} (hk : k ∈ (Finset.Icc 1 m : Set Nat)) => (Finset.mem_Icc.1 hk).2
    have heq : q i = q j := congrArg PairRef.mk hij
    by_contra hne
    rcases Nat.lt_or_gt_of_ne hne with hlt | hgt
    · exact (hq j (hle hj)).2 (heq ▸ mono _ _ _ hlt (hq i (hle hi)).1)
    · exact (hq i (hle hi)).2 (heq ▸ mono _ _ _ hgt (hq j (hle hj)).1)
  have hcard := Finset.card_le_card_of_injOn _ hinside hinj
  rw [Nat.card_Icc, Finset.card_range] at hcard
  omega

end Depth

/-! ## Chains -/

theorem elementsUpTo_succ {n : Nat} {v : Value} {x : List Value × Value}
    (h : s.elementsUpTo n v = some x) : s.elementsUpTo (n + 1) v = some x := by
  induction n generalizing v x with
  | zero =>
    cases v with
    | pair r => cases h
    | nil | integer | symbol | closure => exact h
  | succ n ih =>
    cases v with
    | pair r =>
      obtain ⟨rest, hrest, rfl⟩ := Option.map_eq_some_iff.1 h
      rw [elementsUpTo, ih hrest]
      rfl
    | nil | integer | symbol | closure => exact h

theorem elementsUpTo_mono {m n : Nat} (hmn : m ≤ n) {v : Value} {x : List Value × Value}
    (h : s.elementsUpTo m v = some x) : s.elementsUpTo n v = some x :=
  Nat.le_induction h (fun _ _ ih => elementsUpTo_succ ih) n hmn

/-- The elements of a chain are those that any number of steps leads to. -/
theorem elements?_eq_some_iff {v : Value} {x : List Value × Value} :
    s.elements? v = some x ↔ ∃ n, s.elementsUpTo n v = some x := by
  refine ⟨fun h => ⟨_, h⟩, fun ⟨n, h⟩ => ?_⟩
  have hbound : (s.elements? v).isSome := by
    cases v with
    | nil | integer | symbol | closure => rfl
    | pair r =>
      refine of_depth (P := fun n r => (s.elementsUpTo n (.pair r)).isSome) (n := n) (fun r h => ?_)
        (fun m n r hmn h => ?_) (fun n r h h' => ?_) (fun r hr n h => ?_) (by rw [h]; rfl)
      · cases h
      · obtain ⟨y, hy⟩ := Option.isSome_iff_exists.1 h
        rw [elementsUpTo_mono hmn hy]
        rfl
      · rw [elementsUpTo, Option.isSome_map] at h h'
        cases hcdr : (s.pair r).cdr with
        | pair q => exact ⟨q, hcdr ▸ h, hcdr ▸ h'⟩
        | nil | integer | symbol | closure =>
          rw [hcdr, elementsUpTo_of_ne_pair (by simp)] at h'
          exact absurd rfl h'
      · rw [elementsUpTo, pair_of_le hr]
        rfl
  obtain ⟨y, hy⟩ := Option.isSome_iff_exists.1 hbound
  have hboth := elementsUpTo_mono (Nat.le_max_left n (s.pairs.size + 1)) h
  rw [elementsUpTo_mono (Nat.le_max_right n _) hy] at hboth
  rwa [hy]

/-! ## Printing -/

/-- No way down from the pair `r` that the printer takes passes more than `n`
    pairs. -/
def WritesWithin (s : Store) : Nat → PairRef → Prop
  | 0, _ => False
  | n + 1, r => (s.pair r).car = .nil ∨
      (∀ q, (s.pair r).car = .pair q → s.WritesWithin n q) ∧
        ∀ q, (s.pair r).cdr = .pair q → s.WritesWithin n q

theorem isSome_writePair_iff {n : Nat} {r : PairRef} {out : String} :
    (s.writePair n r out).isSome ↔ s.WritesWithin n r := by
  induction n generalizing r out with
  | zero => simp [writePair, WritesWithin]
  | succ n ih =>
    have helement : ∀ v out, (writeElement (s.writePair n) v out).isSome ↔
        ∀ q, v = .pair q → s.WritesWithin n q := by
      intro v out
      cases v <;> simp [writeElement, ih]
    have hrest : ∀ v out, (s.writeRest n v out).isSome ↔
        ∀ q, v = .pair q → s.WritesWithin n q := by
      intro v out
      cases v <;> simp [writeRest_nil, writeRest_pair, writeRest_tail, ih]
    rw [writePair, WritesWithin]
    by_cases hnil : (s.pair r).car = .nil
    · simp [hnil]
    · rw [if_neg hnil, or_iff_right hnil, ← helement _ out]
      cases writeElement (s.writePair n) (s.pair r).car out with
      | none => simp
      | some out => simp [hrest]

theorem writesWithin_mono {m n : Nat} (hmn : m ≤ n) {r : PairRef} (h : s.WritesWithin m r) :
    s.WritesWithin n r := by
  induction m generalizing n r with
  | zero => exact h.elim
  | succ m ih =>
    obtain ⟨n, rfl⟩ := Nat.exists_eq_add_of_le' (Nat.le_of_add_left_le hmn)
    have hle := Nat.le_of_succ_le_succ hmn
    exact h.imp_right fun h => ⟨fun q hq => ih hle (h.1 q hq), fun q hq => ih hle (h.2 q hq)⟩

theorem writePair_mono {m n : Nat} (hmn : m ≤ n) {r : PairRef} {out text : String}
    (h : s.writePair m r out = some text) : s.writePair n r out = some text := by
  induction m generalizing n r out text with
  | zero => cases h
  | succ m ih =>
    obtain ⟨n, rfl⟩ := Nat.exists_eq_add_of_le' (Nat.le_of_add_left_le hmn)
    have hle := Nat.le_of_succ_le_succ hmn
    rw [writePair] at h ⊢
    split at h
    · rename_i hnil
      rw [if_pos hnil, h]
    · rename_i hnil
      obtain ⟨mid, hfirst, hrest⟩ := Option.bind_eq_some_iff.1 h
      have hfirst' : writeElement (s.writePair n) (s.pair r).car out = some mid := by
        cases hcar : (s.pair r).car with
        | pair q =>
          rw [hcar] at hfirst
          obtain ⟨inner, hinner, rfl⟩ := Option.map_eq_some_iff.1 hfirst
          rw [writeElement, ih hle hinner, Option.map_some]
        | nil | integer | symbol | closure => rwa [hcar] at hfirst
      have hrest' : s.writeRest n (s.pair r).cdr mid = some text := by
        cases hcdr : (s.pair r).cdr with
        | pair q =>
          rw [hcdr, writeRest_pair] at hrest
          rw [writeRest_pair]
          exact ih hle hrest
        | nil =>
          rw [hcdr, writeRest_nil] at hrest
          rwa [writeRest_nil]
        | integer | symbol | closure =>
          rw [hcdr, writeRest_tail (by simp) (by simp)] at hrest
          rwa [writeRest_tail (by simp) (by simp)]
      rw [if_neg hnil, hfirst']
      exact hrest'

/-- The inside of a list is the one that any number of steps leads to. -/
theorem writePair_eq_some_iff {r : PairRef} {out text : String} :
    s.writePair (s.pairs.size + 1) r out = some text ↔ ∃ n, s.writePair n r out = some text := by
  refine ⟨fun h => ⟨_, h⟩, fun ⟨n, h⟩ => ?_⟩
  have hbound : s.WritesWithin (s.pairs.size + 1) r := by
    refine of_depth (P := s.WritesWithin) (n := n) (fun _ h => h)
      (fun _ _ _ hmn h => writesWithin_mono hmn h) (fun n r h h' => ?_) (fun r hr n h => ?_)
      (isSome_writePair_iff.1 (by rw [h]; rfl))
    · -- A component is to blame if a step more is needed.
      obtain ⟨hnil, hparts⟩ := not_or.1 h'
      obtain ⟨hcar, hcdr⟩ := h.resolve_left hnil
      rw [not_and_or] at hparts
      push Not at hparts
      obtain ⟨q, hq, hnot⟩ | ⟨q, hq, hnot⟩ := hparts
      · exact ⟨q, hcar q hq, hnot⟩
      · exact ⟨q, hcdr q hq, hnot⟩
    · exact .inl (by rw [pair_of_le hr])
  obtain ⟨text', h'⟩ : ∃ text', s.writePair (s.pairs.size + 1) r out = some text' :=
    Option.isSome_iff_exists.1 (isSome_writePair_iff.2 hbound)
  have hboth := writePair_mono (Nat.le_max_left n (s.pairs.size + 1)) h
  rw [writePair_mono (Nat.le_max_right n _) h'] at hboth
  rwa [h']

end SmallScheme.Store
