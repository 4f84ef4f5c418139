import SmallScheme.Proofs.Store.Place
import SmallScheme.Proofs.Store.Pursuit

/-!
# Trails

The pairs on the way from a value along second components (`Store.Trail`). Where
`Store.walk` only tells what lies a number of links on, a trail keeps what was passed
on the way; so it can be said of a pair whether a list passes it, and where.

Every value has a trail to the end of its chain, or one that comes back to a pair
on it (`ends_or_circular`). One that has an end passes no pair twice
(`Trail.nodup`): a pair passed again would lead to itself for ever. The proper lists
are the values with a trail to the empty list (`elements?_eq_some_iff_listAt`). So if a
component of a pair is replaced, it is clear for every list what becomes of it. A
list that does not pass the pair stays the same; one that does has it in one place,
where an element is replaced (`ListAt.setCar`) or the list goes on with another one
(`ListAt.setCdr`).
-/

namespace SmallScheme.Store

/-- From `v`, the pairs `rs` lead to `w`, one after another, through their second
    components. -/
inductive Trail (s : Store) : Value → List PairRef → Value → Prop
  | here (v : Value) : Trail s v [] v
  | link {r : PairRef} {rs : List PairRef} {w : Value} : Trail s (s.pair r).cdr rs w →
      Trail s (.pair r) (r :: rs) w

/-- The chain at `v` comes back to a pair that it has passed. -/
def Circular (s : Store) (v : Value) : Prop := ∃ rs r, r ∈ rs ∧ s.Trail v rs (.pair r)

/-- The first components of pairs. -/
def cars (s : Store) (rs : List PairRef) : List Value := rs.map fun r => (s.pair r).car

/-- `v` is a proper list, which consists of the pairs `rs` and has the elements
    `items`. -/
structure ListAt (s : Store) (v : Value) (rs : List PairRef) (items : List Value) : Prop where
  /-- The last of the pairs leads to the empty list. -/
  trail : s.Trail v rs .nil
  /-- The elements are what the pairs begin with. -/
  cars_eq : s.cars rs = items

variable {s t : Store} {u v w : Value} {r q : PairRef} {rs qs : List PairRef} {k : Nat}

/-! ## Parts of trails -/

theorem trail_append_iff : s.Trail v (rs ++ qs) w ↔ ∃ u, s.Trail v rs u ∧ s.Trail u qs w := by
  constructor
  · intro h
    induction rs generalizing v with
    | nil => exact ⟨v, .here v, h⟩
    | cons r rs ih =>
      cases h with
      | link h =>
        obtain ⟨u, hrs, hqs⟩ := ih h
        exact ⟨u, .link hrs, hqs⟩
  · rintro ⟨u, hrs, hqs⟩
    induction hrs with
    | here => exact hqs
    | link _ ih => exact .link (ih hqs)

/-- What leads to a pair on a trail. -/
theorem Trail.take (h : s.Trail v rs w) (hr : rs[k]? = some r) :
    s.Trail v (rs.take k) (.pair r) := by
  obtain ⟨hk, rfl⟩ := List.getElem?_eq_some_iff.1 hr
  rw [← List.take_append_drop k rs, List.drop_eq_getElem_cons hk] at h
  obtain ⟨u, htake, hdrop⟩ := trail_append_iff.1 h
  cases hdrop with
  | link => exact htake

theorem Trail.walk_eq (h : s.Trail v rs w) : s.walk rs.length v = .ok w := by
  induction h with
  | here => rfl
  | link _ ih => exact ih

theorem Trail.walk_take (h : s.Trail v rs w) (hr : rs[k]? = some r) :
    s.walk k v = .ok (.pair r) := by
  obtain ⟨hk, -⟩ := List.getElem?_eq_some_iff.1 hr
  have hwalk := (h.take hr).walk_eq
  rwa [List.length_take_of_le hk.le] at hwalk

theorem exists_trail_of_walk (h : s.walk k v = .ok w) : ∃ rs, rs.length = k ∧ s.Trail v rs w := by
  induction k generalizing v with
  | zero =>
    cases h
    exact ⟨[], rfl, .here _⟩
  | succ k ih =>
    cases v with
    | pair r =>
      obtain ⟨rs, hlength, hrs⟩ := ih h
      exact ⟨r :: rs, congrArg (· + 1) hlength, .link hrs⟩
    | nil | integer | symbol | closure => cases h

/-! ## Ends -/

theorem next?_eq_none_iff : s.next? v = none ↔ ∀ r, v ≠ .pair r := by
  cases v <;> simp [next?]

/-- A trail up to the end of a chain passes no pair twice. -/
theorem Trail.nodup (h : s.Trail v rs w) (hend : ∀ r, w ≠ .pair r) : rs.Nodup := by
  rw [List.nodup_iff_getElem?_ne_getElem?]
  intro i j hlt hj hsame
  have hget := List.getElem?_eq_getElem hj
  exact walk_ne_of_repeat (h.walk_take (hsame.trans hget)) (h.walk_take hget) hlt
    (next?_eq_none_iff.2 hend) _ h.walk_eq

/-- There is only the end that there is, however far one goes. -/
theorem Trail.walk_eq_error (h : s.Trail v rs w) (hend : ∀ r, w ≠ .pair r)
    (hk : rs.length < k) : s.walk k v = .error w := by
  induction h generalizing k with
  | here v =>
    obtain ⟨k, rfl⟩ := Nat.exists_eq_add_of_lt hk
    cases v with
    | pair r => exact absurd rfl (hend r)
    | nil | integer | symbol | closure => rfl
  | link _ ih =>
    obtain ⟨k, rfl⟩ := Nat.exists_eq_succ_of_ne_zero (Nat.ne_zero_of_lt hk)
    exact ih hend (Nat.lt_of_succ_lt_succ hk)

/-- Where no trail leads to an end, there are trails of any length. -/
theorem exists_trail_of_forall (h : ∀ rs w, s.Trail v rs w → ∃ r, w = .pair r) (k : Nat) :
    ∃ rs r, rs.length = k ∧ s.Trail v rs (.pair r) := by
  induction k with
  | zero =>
    obtain ⟨r, rfl⟩ := h [] v (.here v)
    exact ⟨[], r, rfl, .here _⟩
  | succ k ih =>
    obtain ⟨rs, r, hlength, hrs⟩ := ih
    have hnext : s.Trail v (rs ++ [r]) (s.pair r).cdr :=
      trail_append_iff.2 ⟨_, hrs, .link (.here _)⟩
    obtain ⟨q, hq⟩ := h _ _ hnext
    exact ⟨rs ++ [r], q, by rw [List.length_append, hlength]; rfl, hq ▸ hnext⟩

/-- A circular chain goes on for ever. -/
theorem Circular.exists_trail (h : s.Circular v) (k : Nat) :
    ∃ rs r, rs.length = k ∧ s.Trail v rs (.pair r) := by
  obtain ⟨qs, q, hmem, hqs⟩ := h
  obtain ⟨i, hi⟩ := List.mem_iff_getElem?.1 hmem
  refine exists_trail_of_forall (fun rs w hrs => ?_) k
  by_contra hne
  have hend : s.next? w = none := next?_eq_none_iff.2 fun r hr => hne ⟨r, hr⟩
  obtain ⟨hlt, -⟩ := List.getElem?_eq_some_iff.1 hi
  exact walk_ne_of_repeat (hqs.walk_take hi) hqs.walk_eq hlt hend _ hrs.walk_eq

/-- A chain has an end, or it is circular. -/
theorem ends_or_circular (s : Store) (v : Value) :
    (∃ rs w, s.Trail v rs w ∧ ∀ r, w ≠ .pair r) ∨ s.Circular v := by
  refine or_iff_not_imp_left.2 fun hends => ?_
  have hgo : ∀ k, ∃ r, s.walk k v = .ok (.pair r) := by
    intro k
    have hnext : ∀ rs w, s.Trail v rs w → ∃ r, w = .pair r := fun rs w hrs => by
      by_contra hne
      exact hends ⟨rs, w, hrs, fun r hr => hne ⟨r, hr⟩⟩
    obtain ⟨rs, r, rfl, hrs⟩ := exists_trail_of_forall hnext k
    exact ⟨r, hrs.walk_eq⟩
  -- There is a pair wherever one comes to, and so one that is come to twice.
  have hpairs : ∀ k ≤ s.pairs.size, ∃ r : PairRef,
      s.walk k v = .ok (.pair r) ∧ r.index < s.pairs.size := by
    intro k _
    obtain ⟨r, hr⟩ := hgo k
    obtain ⟨q, hq⟩ := hgo (k + 1)
    have hcdr : (s.pair r).cdr = .pair q := Except.ok.inj ((walk_next hr rfl).symm.trans hq)
    exact ⟨r, hr, index_lt_of_cdr_eq_pair hcdr⟩
  obtain ⟨i, j, r, hlt, -, hi, hj⟩ := exists_repeat hpairs
  obtain ⟨rs, rfl, hrs⟩ := exists_trail_of_walk hj
  have hget := List.getElem?_eq_getElem hlt
  obtain rfl : rs[i] = r := Value.pair.inj (Except.ok.inj ((hrs.walk_take hget).symm.trans hi))
  exact ⟨rs, rs[i], List.getElem_mem hlt, hrs⟩

/-! ## Proper lists -/

/-- The elements of a chain are what the pairs on the trail to its end begin with. -/
theorem elements?_eq_some_iff_trail {items : List Value} : s.elements? v = some (items, w) ↔
    ∃ rs, s.Trail v rs w ∧ s.cars rs = items ∧ ∀ r, w ≠ .pair r := by
  rw [elements?_eq_some_iff]
  constructor
  · rintro ⟨n, h⟩
    induction n generalizing v items with
    | zero =>
      cases v with
      | pair r => cases h
      | nil | integer | symbol | closure =>
        cases h
        exact ⟨[], .here _, rfl, by simp⟩
    | succ n ih =>
      cases v with
      | pair r =>
        obtain ⟨⟨rest, tail⟩, hrest, heq⟩ := Option.map_eq_some_iff.1 h
        cases heq
        obtain ⟨rs, hrs, rfl, hend⟩ := ih hrest
        exact ⟨r :: rs, .link hrs, rfl, hend⟩
      | nil | integer | symbol | closure =>
        cases h
        exact ⟨[], .here _, rfl, by simp⟩
  · rintro ⟨rs, hrs, rfl, hend⟩
    refine ⟨rs.length, ?_⟩
    induction hrs with
    | here v => exact elementsUpTo_of_ne_pair hend _
    | link _ ih =>
      rw [List.length_cons, elementsUpTo, ih hend]
      rfl

theorem elements?_eq_some_iff_listAt {items : List Value} :
    s.elements? v = some (items, .nil) ↔ ∃ rs, s.ListAt v rs items := by
  rw [elements?_eq_some_iff_trail]
  exact ⟨fun ⟨rs, hrs, hcars, _⟩ => ⟨rs, hrs, hcars⟩,
    fun ⟨rs, hrs, hcars⟩ => ⟨rs, hrs, hcars, by simp⟩⟩

/-! ## Changes -/

section Changes

variable {x : Value} {items others : List Value}

theorem cdr_pair_setCar : ((s.setCar r x).pair q).cdr = (s.pair q).cdr := by
  by_cases hr : s.Has (.pair r)
  · by_cases hq : q = r
    · rw [hq, pair_setCar_self hr]
    · rw [pair_setCar_of_ne hq]
  · rw [setCar_of_not_has hr]

theorem car_pair_setCdr : ((s.setCdr r x).pair q).car = (s.pair q).car := by
  by_cases hr : s.Has (.pair r)
  · by_cases hq : q = r
    · rw [hq, pair_setCdr_self hr]
    · rw [pair_setCdr_of_ne hq]
  · rw [setCdr_of_not_has hr]

theorem Trail.congr (h : s.Trail v rs w) (hcdr : ∀ r ∈ rs, (t.pair r).cdr = (s.pair r).cdr) :
    t.Trail v rs w := by
  induction h with
  | here v => exact .here v
  | link _ ih =>
    obtain ⟨hr, hrs⟩ := List.forall_mem_cons.1 hcdr
    exact .link (hr ▸ ih hrs)

theorem Trail.setCar (h : s.Trail v rs w) : (s.setCar r x).Trail v rs w :=
  h.congr fun _ _ => cdr_pair_setCar

theorem Trail.setCdr_of_not_mem (h : s.Trail v rs w) (hr : r ∉ rs) :
    (s.setCdr r x).Trail v rs w :=
  h.congr fun _ hq => by rw [pair_setCdr_of_ne (ne_of_mem_of_not_mem hq hr)]

theorem cars_setCar (hrs : rs.Nodup) (hr : rs[k]? = some r) (hhas : s.Has (.pair r)) :
    (s.setCar r x).cars rs = (s.cars rs).set k x := by
  obtain ⟨hk, rfl⟩ := List.getElem?_eq_some_iff.1 hr
  refine List.ext_getElem (by simp [cars]) fun i hi _ => ?_
  rw [List.getElem_set]
  split
  · subst k
    simp [cars, pair_setCar_self hhas]
  · rename_i hne
    have hi : i < rs.length := by simpa [cars] using hi
    have hother : rs[i] ≠ rs[k] := fun heq => hne ((hrs.getElem_inj_iff).1 heq).symm
    simp [cars, pair_setCar_of_ne hother]

theorem cars_setCar_of_not_mem (hr : r ∉ rs) : (s.setCar r x).cars rs = s.cars rs :=
  List.map_congr_left fun _ hq => by rw [pair_setCar_of_ne (ne_of_mem_of_not_mem hq hr)]

theorem cars_setCdr : (s.setCdr r x).cars rs = s.cars rs :=
  List.map_congr_left fun _ _ => car_pair_setCdr

theorem ListAt.nodup (h : s.ListAt v rs items) : rs.Nodup := h.trail.nodup (by simp)

/-- A list has another element where its pair has another first component. -/
theorem ListAt.setCar (h : s.ListAt v rs items) (hr : rs[k]? = some r) (hhas : s.Has (.pair r)) :
    (s.setCar r x).ListAt v rs (items.set k x) :=
  ⟨h.trail.setCar, by rw [cars_setCar h.nodup hr hhas, h.cars_eq]⟩

theorem ListAt.setCar_of_not_mem (h : s.ListAt v rs items) (hr : r ∉ rs) :
    (s.setCar r x).ListAt v rs items :=
  ⟨h.trail.setCar, by rw [cars_setCar_of_not_mem hr, h.cars_eq]⟩

/-- A list goes on with another one after the pair that leads there now. -/
theorem ListAt.setCdr (h : s.ListAt v rs items) (hr : rs[k]? = some r) (hhas : s.Has (.pair r))
    (hx : s.ListAt x qs others) (hqs : r ∉ qs) :
    (s.setCdr r x).ListAt v (rs.take (k + 1) ++ qs) (items.take (k + 1) ++ others) where
  trail := by
    obtain ⟨hk, rfl⟩ := List.getElem?_eq_some_iff.1 hr
    -- The pair lies behind what leads to it, so that is still the way to it.
    have hbefore : rs[k] ∉ rs.take k := fun hmem => by
      obtain ⟨i, hi, heq⟩ := List.mem_take_iff_getElem.1 hmem
      have := (h.nodup.getElem_inj_iff).1 heq
      omega
    have hlink : (s.setCdr rs[k] x).Trail (.pair rs[k]) [rs[k]] x := by
      refine .link ?_
      rw [pair_setCdr_self hhas]
      exact .here x
    rw [List.take_succ_eq_append_getElem hk]
    exact trail_append_iff.2 ⟨_, trail_append_iff.2
      ⟨_, (h.trail.take hr).setCdr_of_not_mem hbefore, hlink⟩, hx.trail.setCdr_of_not_mem hqs⟩
  cars_eq := by
    rw [cars_setCdr, ← h.cars_eq, ← hx.cars_eq]
    simp [cars]

theorem ListAt.setCdr_of_not_mem (h : s.ListAt v rs items) (hr : r ∉ rs) :
    (s.setCdr r x).ListAt v rs items :=
  ⟨h.trail.setCdr_of_not_mem hr, by rw [cars_setCdr, h.cars_eq]⟩

end Changes

end SmallScheme.Store
