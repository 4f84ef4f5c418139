import SmallScheme.Eval.Primitive
import SmallScheme.Eval.Procedure
import SmallScheme.Proofs.Outcome
import SmallScheme.Proofs.Store.Depth

/-!
# Following a chain at two paces

Why it is found out without a record of the pairs passed whether a chain is a proper
list. If the chain ends, the faster of the two followers comes to the end. If it does
not, some pair is passed twice, at two places `i < j` on the chain (`exists_repeat`).
From the place `i` on, everything comes again after `j - i` links, so the places `t`
and `2 * t` are the same pair for the multiple `t` of `j - i` that is beyond `i` and
not beyond `j` (`exists_walk_two_mul_eq`): the followers meet in round `t` at the
latest. On a chain that ends they never meet, because no pair on it is passed twice,
whatever else leads to its pairs (`walk_ne_of_repeat`).

So the test always comes to an answer (`chase_eq_some`), and this is yes just if the
empty list is reached (`isList_iff_walk`), that is if the elements of the list can be
listed (`isList_iff`, `isList_exact`).
-/

namespace SmallScheme

namespace Store

variable {s : Store} {u v w slow fast : Value} {i j k n : Nat} {r q : PairRef}

/-! ## Places on a chain -/

theorem walk_add (h : s.walk i v = .ok w) (k : Nat) : s.walk (i + k) v = s.walk k w := by
  induction i generalizing v with
  | zero =>
    cases h
    rw [Nat.zero_add]
  | succ i ih =>
    rw [Nat.succ_add]
    cases v with
    | pair r => exact ih h
    | nil | integer | symbol | closure => cases h

theorem walk_next (h : s.walk k v = .ok w) (hnext : s.next? w = some u) :
    s.walk (k + 1) v = .ok u := by
  rw [walk_add h]
  cases w with
  | pair r =>
    cases hnext
    rfl
  | nil | integer | symbol | closure => cases hnext

/-- Before any place on a chain there are pairs. -/
theorem exists_pair_of_lt (h : s.walk k v = .ok w) (hlt : i < k) :
    ∃ r, s.walk i v = .ok (.pair r) := by
  obtain ⟨k, rfl⟩ := Nat.exists_eq_add_of_lt hlt
  clear hlt
  induction i generalizing v with
  | zero =>
    cases v with
    | pair r => exact ⟨r, rfl⟩
    | nil | integer | symbol | closure => cases h
  | succ i ih =>
    cases v with
    | pair r =>
      have hrest : s.walk (i + 1 + k) (s.pair r).cdr = .ok w := h
      rw [Nat.add_right_comm] at hrest
      exact ih hrest
    | nil | integer | symbol | closure => cases h

/-- Where a chain ends, no place lies beyond, -/
theorem le_of_walk_end (h : s.walk i v = .ok w) (hend : s.next? w = none)
    (hk : s.walk k v = .ok u) : k ≤ i := by
  by_contra hlt
  obtain ⟨r, hr⟩ := exists_pair_of_lt hk (Nat.lt_of_not_le hlt)
  cases h.symm.trans hr
  cases hend

/-- and there is one end only. -/
theorem eq_of_walk_end (h : s.walk i v = .ok w) (hend : s.next? w = none)
    (hk : s.walk k v = .ok u) (hend' : s.next? u = none) : w = u := by
  obtain rfl := Nat.le_antisymm (le_of_walk_end h hend hk) (le_of_walk_end hk hend' h)
  exact Except.ok.inj (h.symm.trans hk)

theorem eq_nil_iff_of_walk_end (h : s.walk i v = .ok w) (hend : s.next? w = none) :
    w = .nil ↔ ∃ k, s.walk k v = .ok .nil := by
  constructor
  · rintro rfl
    exact ⟨i, h⟩
  · rintro ⟨k, hk⟩
    exact eq_of_walk_end h hend hk rfl

/-! ## Chains that come back -/

/-- What comes back after `i` links comes back again and again. -/
theorem walk_mul_add (h : s.walk i w = .ok w) (n k : Nat) :
    s.walk (n * i + k) w = s.walk k w := by
  induction n with
  | zero => rw [Nat.zero_mul, Nat.zero_add]
  | succ n ih => rw [Nat.succ_mul, Nat.add_comm (n * i), Nat.add_assoc, walk_add h, ih]

/-- A chain that passes a place twice has no end. -/
theorem walk_ne_of_repeat (hi : s.walk i v = .ok w) (hj : s.walk j v = .ok w) (hlt : i < j)
    (hend : s.next? u = none) (k : Nat) : s.walk k v ≠ .ok u := by
  intro hk
  obtain ⟨d, rfl⟩ := Nat.exists_eq_add_of_lt hlt
  rw [Nat.add_assoc, walk_add hi] at hj
  -- After enough rounds, the place lies beyond any end.
  have hfar : s.walk (i + (k + 1) * (d + 1)) v = .ok w := by
    rw [walk_add hi]
    exact walk_mul_add hj (k + 1) 0
  have hle := le_of_walk_end hk hend hfar
  have hmul : k + 1 ≤ (k + 1) * (d + 1) := Nat.le_mul_of_pos_right _ (Nat.succ_pos d)
  omega

/-- If a chain passes a place twice, some place up to the second time is the same as
    that at twice the distance. -/
theorem exists_walk_two_mul_eq (hi : s.walk i v = .ok w) (hj : s.walk j v = .ok w) (hlt : i < j) :
    ∃ t, 0 < t ∧ t ≤ j ∧ s.walk (2 * t) v = s.walk t v := by
  obtain ⟨d, rfl⟩ := Nat.exists_eq_add_of_lt hlt
  rw [Nat.add_assoc, walk_add hi] at hj
  -- The multiple of the length of a round that lies beyond `i` and not beyond `j`.
  obtain ⟨m, hm⟩ : ∃ m, i < (m + 1) * (d + 1) ∧ m * (d + 1) ≤ i :=
    ⟨i / (d + 1), by rw [Nat.mul_comm]; exact Nat.lt_mul_div_succ i d.succ_pos,
      Nat.div_mul_le_self i (d + 1)⟩
  set t := (m + 1) * (d + 1) with ht
  have hle : t ≤ i + d + 1 := by
    rw [ht, Nat.succ_mul]
    omega
  obtain ⟨a, ha⟩ := Nat.exists_eq_add_of_lt hm.1
  refine ⟨t, by omega, hle, ?_⟩
  calc s.walk (2 * t) v
    _ = s.walk (i + (t + (a + 1))) v := by congr 1; omega
    _ = s.walk (a + 1) w := by rw [walk_add hi, walk_mul_add hj]
    _ = s.walk t v := by rw [ha, Nat.add_assoc, walk_add hi]

/-- A chain that is long enough for all pairs passes one of them twice. -/
theorem exists_repeat (h : ∀ k ≤ n, ∃ r : PairRef, s.walk k v = .ok (.pair r) ∧ r.index < n) :
    ∃ i j r, i < j ∧ j ≤ n ∧ s.walk i v = .ok (.pair r) ∧ s.walk j v = .ok (.pair r) := by
  have : Nonempty PairRef := ⟨⟨0⟩⟩
  choose! p h using h
  have hmaps : Set.MapsTo (fun k => (p k).index) (Finset.range (n + 1)) (Finset.range n) :=
    fun k hk => by
      simp only [Finset.coe_range, Set.mem_Iio] at hk ⊢
      exact (h k (Nat.le_of_lt_succ hk)).2
  obtain ⟨i, hi, j, hj, hne, hindex⟩ :=
    Finset.exists_ne_map_eq_of_card_lt_of_maps_to (by simp) hmaps
  rw [Finset.mem_range, Nat.lt_succ_iff] at hi hj
  have hsame : p i = p j := congrArg PairRef.mk hindex
  rcases Nat.lt_or_gt_of_ne hne with hlt | hgt
  · exact ⟨i, j, p j, hlt, hj, hsame ▸ (h i hi).1, (h j hj).1⟩
  · exact ⟨j, i, p i, hgt, hi, hsame ▸ (h j hj).1, (h i hi).1⟩

/-! ## The chase -/

/-- What a round can come to that begins with `slow` at the place `i` of the chain at
    `v` and with `fast` at the place `2 * i`, if `n` more rounds may follow. -/
inductive Round (s : Store) (v : Value) (i n : Nat) : Option Bool → Prop
  /-- The chain ends. -/
  | ended {k : Nat} {w : Value} (hw : s.walk k v = .ok w) (hend : s.next? w = none) :
      Round s v i n (some (w == .nil))
  /-- Both are at the same pair. -/
  | met {r : PairRef} (hslow : s.walk (i + 1) v = .ok (.pair r))
      (hfast : s.walk (2 * (i + 1)) v = .ok (.pair r)) : Round s v i n (some false)
  /-- They are not, and go on. -/
  | next {slow fast : Value} (hslow : s.walk (i + 1) v = .ok slow)
      (hfast : s.walk (2 * (i + 1)) v = .ok fast) (hne : ∀ r, slow = .pair r → fast ≠ .pair r) :
      Round s v i n (s.chase n slow fast)

theorem exists_pair_of_type (h : v.type = .pair) : ∃ r, v = .pair r := by
  cases v with
  | pair r => exact ⟨r, rfl⟩
  | nil | integer | closure => cases h
  | symbol name =>
    rw [Value.type] at h
    split at h <;> cases h

theorem round_chase (hslow : s.walk i v = .ok slow) (hfast : s.walk (2 * i) v = .ok fast)
    (n : Nat) : s.Round v i n (s.chase (n + 1) slow fast) := by
  rw [chase]
  cases hnext : s.next? fast with
  | none => exact .ended hfast hnext
  | some fast' =>
    have hfast' := walk_next hfast hnext
    dsimp only
    cases hnext' : s.next? fast' with
    | none => exact .ended hfast' hnext'
    | some fast'' =>
      have hfast'' : s.walk (2 * (i + 1)) v = .ok fast'' := walk_next hfast' hnext'
      -- Where `fast` is ahead, `slow` can go on.
      obtain ⟨r, hr⟩ := exists_pair_of_lt hfast'' (show i < 2 * (i + 1) by omega)
      obtain rfl := Except.ok.inj (hslow.symm.trans hr)
      have hslow' : s.walk (i + 1) v = .ok ((s.next? (.pair r)).getD (.pair r)) :=
        walk_next hslow rfl
      dsimp only
      split
      · rename_i hsame
        obtain ⟨q, hq⟩ := exists_pair_of_type hsame.1
        exact .met (hq ▸ hslow') (hq ▸ hsame.2 ▸ hfast'')
      · rename_i hother
        exact .next hslow' hfast'' fun q hq hq' => hother ⟨by rw [hq]; rfl, hq.trans hq'.symm⟩

/-- An answer tells whether the empty list is reached. -/
theorem eq_true_iff_of_chase {answer : Bool} (hslow : s.walk i v = .ok slow)
    (hfast : s.walk (2 * i) v = .ok fast) (h : s.chase n slow fast = some answer) :
    answer = true ↔ ∃ k, s.walk k v = .ok .nil := by
  induction n generalizing i slow fast with
  | zero => cases h
  | succ n ih =>
    have hround := round_chase hslow hfast n
    rw [h] at hround
    generalize hresult : some answer = result at hround
    cases hround with
    | ended hw hend =>
      cases hresult
      rw [beq_iff_eq, eq_nil_iff_of_walk_end hw hend]
    | met hslow' hfast' =>
      cases hresult
      refine iff_of_false Bool.false_ne_true ?_
      rintro ⟨k, hk⟩
      exact walk_ne_of_repeat hslow' hfast' (by omega) rfl k hk
    | next hslow' hfast' _ => exact ih hslow' hfast' hresult.symm

/-- As long as there is no answer, the chain goes on and the two do not meet. -/
theorem exists_walk_of_chase_eq_none (hslow : s.walk i v = .ok slow)
    (hfast : s.walk (2 * i) v = .ok fast) (h : s.chase n slow fast = none) :
    ∀ m < n, ∃ w, s.walk (2 * (i + m + 1)) v = .ok w ∧
      ∀ r, s.walk (i + m + 1) v = .ok (.pair r) → w ≠ .pair r := by
  induction n generalizing i slow fast with
  | zero => exact fun m hm => absurd hm (Nat.not_lt_zero m)
  | succ n ih =>
    intro m hm
    have hround := round_chase hslow hfast n
    rw [h] at hround
    generalize hresult : (none : Option Bool) = result at hround
    cases hround with
    | ended | met => cases hresult
    | @next slow' fast' hslow' hfast' hne =>
      cases m with
      | zero => exact ⟨fast', hfast', fun r hr => hne r (Except.ok.inj (hslow'.symm.trans hr))⟩
      | succ m =>
        have hrest := ih hslow' hfast' hresult.symm m (Nat.lt_of_succ_lt_succ hm)
        rwa [Nat.add_right_comm i 1 m] at hrest

/-- There is a pair wherever another one comes next. -/
theorem index_lt_of_cdr_eq_pair (h : (s.pair r).cdr = .pair q) : r.index < s.pairs.size := by
  by_contra hout
  rw [pair_of_le (Nat.le_of_not_lt hout)] at h
  cases h

/-- One round more than there are pairs is enough. -/
theorem exists_chase_eq_some (s : Store) (v : Value) :
    ∃ answer, s.chase (s.pairs.size + 1) v v = some answer := by
  by_contra hnone
  have hnone : s.chase (s.pairs.size + 1) v v = none :=
    Option.eq_none_iff_forall_ne_some.2 fun answer h => hnone ⟨answer, h⟩
  have hgo := exists_walk_of_chase_eq_none (i := 0) rfl rfl hnone
  -- The chain goes on beyond all the pairs that there are.
  obtain ⟨w, hw, -⟩ := hgo s.pairs.size (Nat.lt_succ_self _)
  have hpairs : ∀ k ≤ s.pairs.size, ∃ r : PairRef,
      s.walk k v = .ok (.pair r) ∧ r.index < s.pairs.size := fun k hk => by
    obtain ⟨r, hr⟩ := exists_pair_of_lt hw (show k < 2 * (0 + s.pairs.size + 1) by omega)
    obtain ⟨q, hq⟩ := exists_pair_of_lt hw (show k + 1 < 2 * (0 + s.pairs.size + 1) by omega)
    have hcdr : (s.pair r).cdr = .pair q := Except.ok.inj ((walk_next hr rfl).symm.trans hq)
    exact ⟨r, hr, index_lt_of_cdr_eq_pair hcdr⟩
  obtain ⟨i, j, _, hlt, hj, hfirst, hsecond⟩ := exists_repeat hpairs
  obtain ⟨t, hpos, hle, htwice⟩ := exists_walk_two_mul_eq hfirst hsecond hlt
  obtain ⟨r, hslow, -⟩ := hpairs t (hle.trans hj)
  obtain ⟨w', hw', hne⟩ := hgo (t - 1) (by omega)
  rw [show 0 + (t - 1) + 1 = t by omega] at hw' hne
  exact hne r hslow (Except.ok.inj (hw'.symm.trans (htwice.trans hslow)))

/-- More rounds do not change an answer. -/
theorem chase_add {answer : Bool} (h : s.chase n slow fast = some answer) (m : Nat) :
    s.chase (n + m) slow fast = some answer := by
  induction n generalizing slow fast with
  | zero => cases h
  | succ n ih =>
    rw [Nat.succ_add]
    rw [chase] at h ⊢
    cases hnext : s.next? fast with
    | none => rwa [hnext] at h
    | some fast' =>
      rw [hnext] at h
      dsimp only at h ⊢
      cases hnext' : s.next? fast' with
      | none => rwa [hnext'] at h
      | some fast'' =>
        rw [hnext'] at h
        dsimp only at h ⊢
        split at h
        · rename_i hsame
          rwa [if_pos hsame]
        · rename_i hother
          rw [if_neg hother]
          exact ih h

theorem chase_eq_some (s : Store) (v : Value) (n : Nat) :
    s.chase (s.pairs.size + 1 + n) v v = some (s.isList v) := by
  obtain ⟨answer, h⟩ := exists_chase_eq_some s v
  rw [chase_add h, isList, h, Option.getD_some]

/-! ## Proper lists -/

theorem isList_iff_walk : s.isList v ↔ ∃ k, s.walk k v = .ok .nil :=
  eq_true_iff_of_chase (i := 0) rfl rfl (chase_eq_some s v 0)

/-- The end of a chain lies as far on as the elements are many. -/
theorem walk_of_elementsUpTo {items : List Value} (h : s.elementsUpTo n v = some (items, w)) :
    s.walk items.length v = .ok w := by
  induction n generalizing v items with
  | zero =>
    cases v with
    | pair r => cases h
    | nil | integer | symbol | closure =>
      cases h
      rfl
  | succ n ih =>
    cases v with
    | pair r =>
      obtain ⟨⟨rest, tail⟩, hrest, heq⟩ := Option.map_eq_some_iff.1 h
      cases heq
      have hwalk : s.walk rest.length (s.pair r).cdr = .ok w := ih hrest
      exact hwalk
    | nil | integer | symbol | closure =>
      cases h
      rfl

theorem exists_elementsUpTo_of_walk (h : s.walk k v = .ok w) (hend : s.next? w = none) :
    ∃ items, s.elementsUpTo k v = some (items, w) := by
  induction k generalizing v with
  | zero =>
    cases h
    refine ⟨[], elementsUpTo_of_ne_pair (fun r hr => ?_) 0⟩
    rw [hr] at hend
    cases hend
  | succ k ih =>
    cases v with
    | pair r =>
      obtain ⟨items, hitems⟩ := ih h
      exact ⟨(s.pair r).car :: items, by rw [elementsUpTo, hitems]; rfl⟩
    | nil | integer | symbol | closure => cases h

/-- A proper list is one that has an end, the empty list. -/
theorem isList_iff : s.isList v ↔ ∃ items, s.elements? v = some (items, .nil) := by
  rw [isList_iff_walk]
  constructor
  · rintro ⟨k, hk⟩
    obtain ⟨items, hitems⟩ := exists_elementsUpTo_of_walk hk rfl
    exact ⟨items, elements?_eq_some_iff.2 ⟨k, hitems⟩⟩
  · rintro ⟨items, hitems⟩
    obtain ⟨n, hn⟩ := elements?_eq_some_iff.1 hitems
    exact ⟨items.length, walk_of_elementsUpTo hn⟩

end Store

open StoreM

theorem Eval.properList_eq_value_iff {s : Store} {v : Value} {what : String} {items : List Value} :
    (properList what v).run s = .value items s ↔ s.elements? v = some (items, .nil) := by
  rw [properList, run_bind, run_find]
  rcases s.elements? v with _ | ⟨items', _ | _ | _ | _ | _⟩ <;> simp

/-- On every store, the test for proper lists comes to an answer, however many rounds
    more it is given. It is yes just for the values from which the empty list is
    reached through second components; these are the ones that can be taken apart as
    lists. -/
theorem isList_exact (s : Store) (v : Value) (what : String) :
    (∀ n, s.chase (s.pairs.size + 1 + n) v v = some (s.isList v)) ∧
    ((Primitive.isList.apply [v]).run s = .value (.ofBool true) s ↔
      ∃ k, s.walk k v = .ok .nil) ∧
    ((Primitive.isList.apply [v]).run s = .value (.ofBool false) s ↔
      ¬∃ k, s.walk k v = .ok .nil) ∧
    ((Primitive.isList.apply [v]).run s = .value (.ofBool true) s ↔
      ∃ items, (Eval.properList what v).run s = .value items s) := by
  have hrun : ∀ b, (Primitive.isList.apply [v]).run s = .value (.ofBool b) s ↔ s.isList v = b := by
    intro b
    change (pure (Value.ofBool (s.isList v)) : StoreM EvalError Value).run s = _ ↔ _
    cases s.isList v <;> cases b <;> simp [Value.ofBool]
  refine ⟨Store.chase_eq_some s v, ?_, ?_, ?_⟩
  · rw [hrun, Store.isList_iff_walk]
  · rw [hrun, ← Store.isList_iff_walk, Bool.not_eq_true]
  · rw [hrun, Store.isList_iff]
    simp only [Eval.properList_eq_value_iff]

/-- A chain that goes round after a link that does not. -/
example : Store.isList ⟨#[⟨.nil, .pair ⟨1⟩⟩, ⟨.nil, .pair ⟨2⟩⟩, ⟨.nil, .pair ⟨3⟩⟩,
    ⟨.nil, .pair ⟨1⟩⟩], #[], #[]⟩ (.pair ⟨0⟩) = false := by decide

end SmallScheme
