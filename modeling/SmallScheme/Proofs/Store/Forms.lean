import SmallScheme.Proofs.Store.Trail
import SmallScheme.Proofs.World.Growth

/-!
# Forms in the store

A form that is put together from parts that are in the store already is a list of new
pairs (`Eval.newForm`, `Eval.exists_newForm`). To say what such a form is worth, it must
still be there when it comes to be evaluated. It is, whatever else is made
(`Store.NewForm.grows`), and nothing that was there before leads to its pairs.
-/

namespace SmallScheme

open StoreM

namespace Store

variable {s t u : Store} {v : Value} {rs : List PairRef} {items : List Value}

theorem ListAt.congr (h : s.ListAt v rs items) (hpair : ∀ r ∈ rs, t.pair r = s.pair r) :
    t.ListAt v rs items where
  trail := h.trail.congr fun r hr => by rw [hpair r hr]
  cars_eq := by
    rw [← h.cars_eq]
    exact List.map_congr_left fun r hr => by rw [hpair r hr]

/-- A list with one more element in front. -/
theorem ListAt.cons (h : s.ListAt v rs items) (hhas : ∀ r ∈ rs, s.Has (.pair r)) (item : Value) :
    (s.cons item v).2.ListAt (.pair ⟨s.pairs.size⟩) (⟨s.pairs.size⟩ :: rs) (item :: items) := by
  have hpair : (s.cons item v).2.pair ⟨s.pairs.size⟩ = ⟨item, v⟩ := pair_cons_self
  obtain ⟨htrail, hcars⟩ := h.congr fun r hr => (grows_cons item v).pair (hhas r hr)
  refine ⟨.link (by rwa [hpair]), ?_⟩
  rw [cars] at hcars
  rw [cars, List.map_cons, hpair, hcars]

/-- A new list consists of new pairs. -/
theorem exists_listAt_list (s : Store) (items : List Value) : s.Grows (s.list items).2 ∧
    ∃ rs, (s.list items).2.ListAt (s.list items).1 rs items ∧
      ∀ r ∈ rs, ¬s.Has (.pair r) ∧ (s.list items).2.Has (.pair r) := by
  induction items with
  | nil => exact ⟨.refl s, [], ⟨.here _, rfl⟩, nofun⟩
  | cons item items ih =>
    obtain ⟨hgrows, rs, hlist, hnew⟩ := ih
    have hadds := adds_cons (s := (s.list items).2) item (s.list items).1
    refine ⟨hgrows.trans hadds.grows, _, hlist.cons (fun r hr => (hnew r hr).2) item,
      List.forall_mem_cons.2 ⟨⟨fun h => ?_, World.has_of_adds hadds⟩, fun r hr => ?_⟩⟩
    · exact World.not_has_of_adds hadds (hgrows.has h)
    · exact ⟨(hnew r hr).1, hadds.grows.has (hnew r hr).2⟩

theorem ListAt.exists_pair {item : Value} (h : s.ListAt v rs (item :: items)) :
    ∃ r, v = .pair r ∧ (s.pair r).car = item ∧ s.elements? (s.pair r).cdr = some (items, .nil) := by
  obtain ⟨htrail, hcars⟩ := h
  cases htrail with
  | here => cases hcars
  | @link r rs _ htrail =>
    obtain ⟨hitem, hitems⟩ := List.cons.inj hcars
    exact ⟨r, rfl, hitem, elements?_eq_some_iff_listAt.2 ⟨rs, htrail, hitems⟩⟩

/-- At `v`, there is a form with the given head and operands, in pairs made since `s`. -/
def NewForm (s t : Store) (v : Value) (head : String) (operands : List Value) : Prop :=
  ∃ rs, t.ListAt v rs (.symbol head :: operands) ∧ ∀ r ∈ rs, ¬s.Has (.pair r) ∧ t.Has (.pair r)

variable {head : String} {operands : List Value}

theorem NewForm.grows (h : s.NewForm t v head operands) (hgrows : t.Grows u) :
    s.NewForm u v head operands := by
  obtain ⟨rs, hlist, hnew⟩ := h
  exact ⟨rs, hlist.congr fun r hr => hgrows.pair (hnew r hr).2,
    fun r hr => ⟨(hnew r hr).1, hgrows.has (hnew r hr).2⟩⟩

theorem NewForm.of_grows (h : t.NewForm u v head operands) (hgrows : s.Grows t) :
    s.NewForm u v head operands := by
  obtain ⟨rs, hlist, hnew⟩ := h
  exact ⟨rs, hlist, fun r hr => ⟨fun hs => (hnew r hr).1 (hgrows.has hs), (hnew r hr).2⟩⟩

end Store

namespace Eval

/-- A new form with the given head and operands. -/
def newForm (head : String) (operands : List Value) : Eval Value :=
  create fun s => s.list (.symbol head :: operands)

/-- What a new form is, and that nothing else happens when it is made. -/
theorem exists_newForm (s : Store) (head : String) (operands : List Value) :
    ∃ v t, (newForm head operands).run s = .value v t ∧ s.Grows t ∧
      s.NewForm t v head operands := by
  obtain ⟨hgrows, rs, hlist, hnew⟩ := Store.exists_listAt_list s (.symbol head :: operands)
  exact ⟨_, _, rfl, hgrows, rs, hlist, hnew⟩

/-- A new form among the operands of which there is another one. -/
theorem exists_newForm_bind (s : Store) (head head' : String) (operands : List Value)
    (around : Value → List Value) :
    ∃ inner v t,
      (newForm head operands >>= fun inner => newForm head' (around inner)).run s = .value v t ∧
      s.Grows t ∧ s.NewForm t inner head operands ∧ s.NewForm t v head' (around inner) := by
  obtain ⟨inner, t, hinner, hgrows, hform⟩ := exists_newForm s head operands
  obtain ⟨v, u, hv, hgrows', hform'⟩ := exists_newForm t head' (around inner)
  refine ⟨inner, v, u, ?_, hgrows.trans hgrows', hform.grows hgrows', hform'.of_grows hgrows⟩
  rw [run_bind, hinner, ← hv]

end Eval

end SmallScheme
