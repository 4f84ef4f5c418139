import SmallScheme.Proofs.Primitive.Indexing

/-!
# Mutation through a tail

What is left of a list from an index on is no copy. So `set-car!` and `set-cdr!`, given
this, change the list that it was taken from, and every other list that has come to share
the pair (`Primitive.mutation_exact`). Each of these has the pair in one place, and is
changed there and nowhere else; a list that does not pass the pair stays as it was.

That a proper list passes no pair twice is what this rests on (`Store.ListAt.nodup`), and
for `set-cdr!` also that the new end of the list does not lead back to the pair.
-/

namespace SmallScheme.Primitive

open StoreM

variable {s : Store} {xs ys v w : Value} {k : Fixnum} {r : PairRef} {rs : List PairRef}
  {items : List Value}

theorem run_setCar (s : Store) (r : PairRef) (v : Value) :
    (setCar.apply [.pair r, v]).run s = .value .nil (s.setCar r v) := rfl

theorem run_setCdr (s : Store) (r : PairRef) (v : Value) :
    (setCdr.apply [.pair r, v]).run s = .value .nil (s.setCdr r v) := rfl

/-- An index of a list leads to its pair there. -/
theorem run_listTail_of_listAt (h : s.ListAt xs rs items) (hk : 0 ≤ k.toInt)
    (hr : rs[k.toInt.toNat]? = some r) :
    (listTail.apply [xs, .integer k]).run s = .value (.pair r) s := by
  rw [run_listTail hk, h.trail.walk_take hr]

/-- The element at an index of a list. -/
theorem run_listRef_of_listAt (h : s.ListAt xs rs items) (hk : 0 ≤ k.toInt)
    (hw : items[k.toInt.toNat]? = some w) :
    (listRef.apply [xs, .integer k]).run s = .value w s := by
  rw [← h.cars_eq, Store.cars, List.getElem?_map] at hw
  obtain ⟨r, hr, rfl⟩ := Option.map_eq_some_iff.1 hw
  exact run_listRef_of_pair hk (h.trail.walk_take hr)

/-- What is left of the list `xs` from the index `k` on begins with the pair `r`, which
    the list has there. (The place of a pair is all that is asked of it; a program gets hold
    of no other.) If this pair is given another first component, the list has another
    element at `k`, and every list that passes the pair, wherever it does, has the same
    element there. If it is given a proper list as second component which does not pass it,
    each of these lists goes on with that one after the pair. A list that does not pass the
    pair stays the same in both cases. -/
theorem mutation_exact (hxs : s.ListAt xs rs items) (hk : 0 ≤ k.toInt)
    (hr : rs[k.toInt.toNat]? = some r) (hhas : s.Has (.pair r)) :
    (listTail.apply [xs, .integer k]).run s = .value (.pair r) s ∧
    (∀ v, ∃ t, (setCar.apply [.pair r, v]).run s = .value .nil t ∧
      (listRef.apply [xs, .integer k]).run t = .value v t ∧
      (∀ i : Fixnum, 0 ≤ i.toInt → i.toInt < rs.length → i ≠ k → ∃ w,
        (listRef.apply [xs, .integer i]).run s = .value w s ∧
        (listRef.apply [xs, .integer i]).run t = .value w t) ∧
      t.ListAt xs rs (items.set k.toInt.toNat v) ∧
      ∀ zs ps ws, s.ListAt zs ps ws →
        (∀ j, ps[j]? = some r → t.ListAt zs ps (ws.set j v)) ∧
        (r ∉ ps → t.ListAt zs ps ws)) ∧
    (∀ ys qs us, s.ListAt ys qs us → r ∉ qs → ∃ t,
      (setCdr.apply [.pair r, ys]).run s = .value .nil t ∧
      t.ListAt xs (rs.take (k.toInt.toNat + 1) ++ qs) (items.take (k.toInt.toNat + 1) ++ us) ∧
      ∀ zs ps ws, s.ListAt zs ps ws →
        (∀ j, ps[j]? = some r → t.ListAt zs (ps.take (j + 1) ++ qs) (ws.take (j + 1) ++ us)) ∧
        (r ∉ ps → t.ListAt zs ps ws)) := by
  have hlength : items.length = rs.length := by
    rw [← hxs.cars_eq, Store.cars, List.length_map]
  have hlt : k.toInt.toNat < items.length := by
    rw [hlength]
    exact (List.getElem?_eq_some_iff.1 hr).1
  refine ⟨run_listTail_of_listAt hxs hk hr, fun v => ?_, fun ys qs us hys hqs => ?_⟩
  · have hset := hxs.setCar (x := v) hr hhas
    refine ⟨_, run_setCar s r v, ?_, fun i hi hin hne => ?_, hset, fun zs ps ws hzs =>
      ⟨fun j hj => hzs.setCar hj hhas, hzs.setCar_of_not_mem⟩⟩
    · exact run_listRef_of_listAt hset hk (List.getElem?_set_self hlt)
    · -- Another index is another place, which keeps its element.
      have hplaces : k.toInt.toNat ≠ i.toInt.toNat := fun heq =>
        hne (Fixnum.eq_of_toInt_eq (by omega))
      have hold := List.getElem?_eq_getElem (l := items) (i := i.toInt.toNat) (by omega)
      refine ⟨_, run_listRef_of_listAt hxs hi hold, run_listRef_of_listAt hset hi ?_⟩
      rw [List.getElem?_set_ne hplaces, hold]
  · exact ⟨_, run_setCdr s r ys, hxs.setCdr hr hhas hys hqs, fun zs ps ws hzs =>
      ⟨fun j hj => hzs.setCdr hj hhas hys hqs, hzs.setCdr_of_not_mem⟩⟩

/-- The lists `(a b)` and `(c b)` share their last pair: both have another last element
    after `set-car!`, and both go on with `(d)` after `set-cdr!`. The list `(d)` itself
    stays the same. -/
theorem mutation_exact_shared :
    let s : Store := ⟨#[⟨.symbol "a", .pair ⟨1⟩⟩, ⟨.symbol "b", .nil⟩, ⟨.symbol "c", .pair ⟨1⟩⟩,
      ⟨.symbol "d", .nil⟩], #[], #[]⟩
    s.ListAt (.pair ⟨0⟩) [⟨0⟩, ⟨1⟩] [.symbol "a", .symbol "b"] ∧ 0 ≤ Fixnum.one.toInt ∧
    s.Has (.pair ⟨1⟩) ∧ s.ListAt (.pair ⟨2⟩) [⟨2⟩, ⟨1⟩] [.symbol "c", .symbol "b"] ∧
    s.ListAt (.pair ⟨3⟩) [⟨3⟩] [.symbol "d"] ∧
    (∃ t, (setCar.apply [.pair ⟨1⟩, .nil]).run s = .value .nil t ∧
      t.ListAt (.pair ⟨2⟩) [⟨2⟩, ⟨1⟩] [.symbol "c", .nil] ∧
      t.ListAt (.pair ⟨3⟩) [⟨3⟩] [.symbol "d"]) ∧
    ∃ t, (setCdr.apply [.pair ⟨1⟩, .pair ⟨3⟩]).run s = .value .nil t ∧
      t.ListAt (.pair ⟨0⟩) [⟨0⟩, ⟨1⟩, ⟨3⟩] [.symbol "a", .symbol "b", .symbol "d"] ∧
      t.ListAt (.pair ⟨2⟩) [⟨2⟩, ⟨1⟩, ⟨3⟩] [.symbol "c", .symbol "b", .symbol "d"] := by
  intro s
  have hxs : s.ListAt (.pair ⟨0⟩) [⟨0⟩, ⟨1⟩] [.symbol "a", .symbol "b"] :=
    ⟨.link (.link (.here _)), rfl⟩
  have hzs : s.ListAt (.pair ⟨2⟩) [⟨2⟩, ⟨1⟩] [.symbol "c", .symbol "b"] :=
    ⟨.link (.link (.here _)), rfl⟩
  have hys : s.ListAt (.pair ⟨3⟩) [⟨3⟩] [.symbol "d"] := ⟨.link (.here _), rfl⟩
  have hhas : s.Has (.pair ⟨1⟩) := by decide
  obtain ⟨-, hcar, hcdr⟩ :=
    mutation_exact (k := .one) (r := ⟨1⟩) hxs (by decide) rfl hhas
  obtain ⟨t, ht, -, -, -, hothers⟩ := hcar .nil
  obtain ⟨u, hu, hlist, hothers'⟩ := hcdr _ _ _ hys (by decide)
  exact ⟨hxs, by decide, hhas, hzs, hys,
    ⟨t, ht, (hothers _ _ _ hzs).1 1 rfl, (hothers _ _ _ hys).2 (by decide)⟩,
    u, hu, hlist, (hothers' _ _ _ hzs).1 1 rfl⟩

end SmallScheme.Primitive
