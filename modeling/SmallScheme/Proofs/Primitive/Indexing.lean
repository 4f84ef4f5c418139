import SmallScheme.Proofs.Primitive.Operands
import SmallScheme.Proofs.Store.Trail

/-!
# Indices

What `list-tail` and `list-ref` come to for every value and every index
(`Primitive.indexing_exact`). Both first look at the index, which has to be an integer
that is not negative, and then follow the chain as far as it leads. They differ in
where they find the end of the chain too early: what is left of a list of `n` elements
at the index `n` is the empty list, but there is no element.

A value need not be a list for this. What counts is the trail from it to the end of its
chain: an index leads to a pair on it, or to the end, or beyond, and then the error tells
what the end is. A circular chain has a pair at every index.
-/

namespace SmallScheme.Primitive

open StoreM

variable {s : Store} {op : Primitive} {v w i tail : Value} {k : Fixnum} {r : PairRef}
  {rs : List PairRef}

/-! ## The index -/

theorem run_indexOf_of_type_ne (h : i.type ≠ .integer) :
    (indexOf op i).run s = .error (.typeMismatch op .integer i.type) s := by
  rw [indexOf, integer_of_type_ne op h]
  rfl

theorem run_indexOf_of_neg (h : k.toInt < 0) :
    (indexOf op (.integer k)).run s = .error (.indexOutOfRange op k) s := by
  change (if k.toInt < 0 then fail _ else pure _ : Eval (Nat × Fixnum)).run s = _
  rw [if_pos h, run_fail]

theorem run_indexOf_of_nonneg (h : 0 ≤ k.toInt) :
    (indexOf op (.integer k)).run s = .value (k.toInt.toNat, k) s := by
  change (if k.toInt < 0 then fail _ else pure _ : Eval (Nat × Fixnum)).run s = _
  rw [if_neg (not_lt.2 h), run_pure]

/-! ## What is there -/

/-- What is reported for an index beyond the end of a chain. -/
theorem endedEarly_eq (op : Primitive) (k : Fixnum) (tail : Value) : endedEarly op k tail =
    if tail = .nil then .indexOutOfRange op k else .typeMismatch op .list tail.type := by
  cases tail <;> rfl

theorem run_dropTo (n : Nat) : (dropTo op v n k).run s = match s.walk n v with
    | .ok rest => .value rest s
    | .error tail => .error (endedEarly op k tail) s := by
  rw [dropTo, run_bind, run_read]
  dsimp only
  cases s.walk n v <;> rfl

theorem run_listTail (hk : 0 ≤ k.toInt) :
    (listTail.apply [v, .integer k]).run s = match s.walk k.toInt.toNat v with
      | .ok rest => .value rest s
      | .error tail => .error (endedEarly .listTail k tail) s := by
  change (tailAt v (.integer k)).run s = _
  rw [tailAt, run_bind, run_indexOf_of_nonneg hk]
  exact run_dropTo _

theorem run_listRef_of_pair (hk : 0 ≤ k.toInt) (h : s.walk k.toInt.toNat v = .ok (.pair r)) :
    (listRef.apply [v, .integer k]).run s = .value (s.pair r).car s := by
  change (elementAt v (.integer k)).run s = _
  rw [elementAt, run_bind, run_indexOf_of_nonneg hk]
  dsimp only
  rw [run_bind, run_dropTo, h]
  rfl

/-- There is no element at the end of a chain, nor beyond. -/
theorem run_listRef_of_end (hk : 0 ≤ k.toInt) (hend : ∀ r, tail ≠ .pair r)
    (h : s.walk k.toInt.toNat v = .ok tail ∨ s.walk k.toInt.toNat v = .error tail) :
    (listRef.apply [v, .integer k]).run s = .error (endedEarly .listRef k tail) s := by
  change (elementAt v (.integer k)).run s = _
  rw [elementAt, run_bind, run_indexOf_of_nonneg hk]
  dsimp only
  rw [run_bind, run_dropTo]
  rcases h with h | h
  · rw [h]
    cases tail with
    | pair r => exact absurd rfl (hend r)
    | nil | integer | symbol | closure => rfl
  · rw [h]

/-! ## Every index -/

/-- A chain of pairs with an end, and an index that is not negative. -/
theorem indexing_of_trail (h : s.Trail v rs tail) (hend : ∀ r, tail ≠ .pair r)
    (hk : 0 ≤ k.toInt) :
    (k.toInt ≤ rs.length → ∃ rest, s.Trail v (rs.take k.toInt.toNat) rest ∧
      (listTail.apply [v, .integer k]).run s = .value rest s) ∧
    (rs.length < k.toInt →
      (listTail.apply [v, .integer k]).run s = .error (endedEarly .listTail k tail) s) ∧
    (∀ r, rs[k.toInt.toNat]? = some r →
      (listRef.apply [v, .integer k]).run s = .value (s.pair r).car s) ∧
    (rs.length ≤ k.toInt →
      (listRef.apply [v, .integer k]).run s = .error (endedEarly .listRef k tail) s) := by
  refine ⟨fun hle => ?_, fun hlt => ?_, fun r hr => ?_, fun hle => ?_⟩
  · have hsplit := h
    rw [← List.take_append_drop k.toInt.toNat rs] at hsplit
    obtain ⟨rest, htake, -⟩ := Store.trail_append_iff.1 hsplit
    have hwalk := htake.walk_eq
    rw [List.length_take_of_le (by omega)] at hwalk
    exact ⟨rest, htake, by rw [run_listTail hk, hwalk]⟩
  · rw [run_listTail hk, h.walk_eq_error hend (by omega)]
  · exact run_listRef_of_pair hk (h.walk_take hr)
  · refine run_listRef_of_end hk hend ?_
    rcases hle.eq_or_lt with heq | hlt
    · left
      rw [← heq, Int.toNat_natCast]
      exact h.walk_eq
    · exact .inr (h.walk_eq_error hend (by omega))

theorem indexing_of_circular (h : s.Circular v) (hk : 0 ≤ k.toInt) :
    ∃ rs r, (rs.length : Int) = k.toInt ∧ s.Trail v rs (.pair r) ∧
      (listTail.apply [v, .integer k]).run s = .value (.pair r) s ∧
      (listRef.apply [v, .integer k]).run s = .value (s.pair r).car s := by
  obtain ⟨rs, r, hlength, hrs⟩ := h.exists_trail k.toInt.toNat
  have hwalk := hrs.walk_eq
  rw [hlength] at hwalk
  exact ⟨rs, r, by omega, hrs, by rw [run_listTail hk, hwalk], run_listRef_of_pair hk hwalk⟩

/-- For every value and every index, what is left of the value there, and its element
    there. Whatever the value, the index must be an integer that is not negative. Then it
    counts links: on a chain of pairs with an end, up to this for what is left, and to a
    pair for an element. What is reported beyond depends on the end. On a circular chain
    every index leads to a pair; and there are no other chains. -/
theorem indexing_exact (s : Store) (v : Value) :
    (∀ i, i.type ≠ .integer →
      (listTail.apply [v, i]).run s = .error (.typeMismatch .listTail .integer i.type) s ∧
      (listRef.apply [v, i]).run s = .error (.typeMismatch .listRef .integer i.type) s) ∧
    (∀ k : Fixnum, k.toInt < 0 →
      (listTail.apply [v, .integer k]).run s = .error (.indexOutOfRange .listTail k) s ∧
      (listRef.apply [v, .integer k]).run s = .error (.indexOutOfRange .listRef k) s) ∧
    (∀ rs tail, s.Trail v rs tail → (∀ r, tail ≠ .pair r) → ∀ k : Fixnum, 0 ≤ k.toInt →
      (k.toInt ≤ rs.length → ∃ rest, s.Trail v (rs.take k.toInt.toNat) rest ∧
        (listTail.apply [v, .integer k]).run s = .value rest s) ∧
      (rs.length < k.toInt → (listTail.apply [v, .integer k]).run s =
        .error (if tail = .nil then .indexOutOfRange .listTail k
          else .typeMismatch .listTail .list tail.type) s) ∧
      (∀ r, rs[k.toInt.toNat]? = some r →
        (listRef.apply [v, .integer k]).run s = .value (s.pair r).car s) ∧
      (rs.length ≤ k.toInt → (listRef.apply [v, .integer k]).run s =
        .error (if tail = .nil then .indexOutOfRange .listRef k
          else .typeMismatch .listRef .list tail.type) s)) ∧
    (s.Circular v → ∀ k : Fixnum, 0 ≤ k.toInt →
      ∃ rs r, (rs.length : Int) = k.toInt ∧ s.Trail v rs (.pair r) ∧
        (listTail.apply [v, .integer k]).run s = .value (.pair r) s ∧
        (listRef.apply [v, .integer k]).run s = .value (s.pair r).car s) ∧
    ((∃ rs tail, s.Trail v rs tail ∧ ∀ r, tail ≠ .pair r) ∨ s.Circular v) := by
  refine ⟨fun i hi => ?_, fun k hk => ?_, fun rs tail h hend k hk => ?_,
    fun h k hk => indexing_of_circular h hk, s.ends_or_circular v⟩
  · constructor
    · change (tailAt v i).run s = _
      rw [tailAt, run_bind, run_indexOf_of_type_ne hi]
    · change (elementAt v i).run s = _
      rw [elementAt, run_bind, run_indexOf_of_type_ne hi]
  · constructor
    · change (tailAt v (.integer k)).run s = _
      rw [tailAt, run_bind, run_indexOf_of_neg hk]
    · change (elementAt v (.integer k)).run s = _
      rw [elementAt, run_bind, run_indexOf_of_neg hk]
  · rw [← endedEarly_eq, ← endedEarly_eq]
    exact indexing_of_trail h hend hk

/-- A chain of two pairs that ends in an integer, and one of two pairs that goes round:
    at the index two there is the end of the first, but no element; on the second, there
    is the pair that the chain begins with. -/
theorem indexing_exact_ends :
    let s : Store := ⟨#[⟨.symbol "a", .pair ⟨1⟩⟩, ⟨.symbol "b", .integer .one⟩,
      ⟨.symbol "c", .pair ⟨3⟩⟩, ⟨.symbol "d", .pair ⟨2⟩⟩], #[], #[]⟩
    let two : Fixnum := ⟨2, by decide⟩
    Value.nil.type ≠ .integer ∧ (⟨-1, by decide⟩ : Fixnum).toInt < 0 ∧
    s.Trail (.pair ⟨0⟩) [⟨0⟩, ⟨1⟩] (.integer .one) ∧ s.Circular (.pair ⟨2⟩) ∧
    (listRef.apply [.pair ⟨0⟩, .nil]).run s = .error (.typeMismatch .listRef .integer .nil) s ∧
    (listTail.apply [.pair ⟨0⟩, .integer ⟨-1, by decide⟩]).run s =
      .error (.indexOutOfRange .listTail ⟨-1, by decide⟩) s ∧
    (∃ rest, s.Trail (.pair ⟨0⟩) [⟨0⟩, ⟨1⟩] rest ∧
      (listTail.apply [.pair ⟨0⟩, .integer two]).run s = .value rest s) ∧
    (listTail.apply [.pair ⟨0⟩, .integer ⟨3, by decide⟩]).run s =
      .error (.typeMismatch .listTail .list .integer) s ∧
    (listRef.apply [.pair ⟨0⟩, .integer .one]).run s = .value (.symbol "b") s ∧
    (listRef.apply [.pair ⟨0⟩, .integer two]).run s =
      .error (.typeMismatch .listRef .list .integer) s ∧
    ∃ rs r, (rs.length : Int) = 2 ∧ s.Trail (.pair ⟨2⟩) rs (.pair r) ∧
      (listTail.apply [.pair ⟨2⟩, .integer two]).run s = .value (.pair r) s ∧
      (listRef.apply [.pair ⟨2⟩, .integer two]).run s = .value (s.pair r).car s := by
  intro s two
  have htrail : s.Trail (.pair ⟨0⟩) [⟨0⟩, ⟨1⟩] (.integer .one) := .link (.link (.here _))
  have hcircular : s.Circular (.pair ⟨2⟩) :=
    ⟨[⟨2⟩, ⟨3⟩], ⟨2⟩, List.mem_cons_self, .link (.link (.here _))⟩
  obtain ⟨htype, hneg, hends, -, -⟩ := indexing_exact s (.pair ⟨0⟩)
  have hchain := hends _ _ htrail nofun
  refine ⟨by decide, by decide, htrail, hcircular, (htype .nil (by decide)).2,
    (hneg _ (by decide)).1, (hchain two (by decide)).1 (by decide),
    (hchain ⟨3, by decide⟩ (by decide)).2.1 (by decide),
    (hchain .one (by decide)).2.2.1 ⟨1⟩ rfl, (hchain two (by decide)).2.2.2 (by decide), ?_⟩
  exact (indexing_exact s (.pair ⟨2⟩)).2.2.2.1 hcircular two (by decide)

end SmallScheme.Primitive
