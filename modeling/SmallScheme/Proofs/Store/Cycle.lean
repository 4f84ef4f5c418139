import SmallScheme.Proofs.Store.Display
import SmallScheme.Proofs.Store.Depth
import SmallScheme.Store.Equality

/-!
# Stores without cycles

A store in which no pair reaches itself (`Store.CycleFree`), and what keeps it so.
To change one pair is safe if the pair cannot be reached from what its components
become (`CycleFree.of_pair_ne`): a way that leaves the pair at last, and leads
back to it, takes only links that were there before.

Nothing that is in a store reaches a place where there is no pair yet
(`Store.Whole`), so new pairs are safe (`Whole.cons`, `list`, `load`).

Everything in such a store is acyclic, and whatever follows the links of a value
comes to an end (`CycleFree.ends`).
-/

namespace SmallScheme

namespace Store

variable {s t : Store} {u v w : Value} {r : PairRef}

/-- No pair is reached from its own components. -/
def CycleFree (s : Store) : Prop := ∀ r, ¬ Relation.TransGen s.Link (.pair r) (.pair r)

theorem CycleFree.acyclic (h : s.CycleFree) (v : Value) : s.Acyclic v := fun r _ => h r

theorem Link.exists_pair (h : s.Link v w) : ∃ r, v = .pair r := by
  cases h <;> exact ⟨_, rfl⟩

/-- The links of a pair depend on its components only. -/
theorem Link.congr (h : t.pair r = s.pair r) (hlink : t.Link (.pair r) w) :
    s.Link (.pair r) w := by
  cases hlink with
  | car =>
    rw [h]
    exact .car r
  | cdr =>
    rw [h]
    exact .cdr r

theorem CycleFree.of_pairs_eq (h : s.CycleFree) (hpairs : t.pairs = s.pairs) : t.CycleFree := by
  refine fun r hcycle => h r (hcycle.lift id fun v w hlink => ?_)
  obtain ⟨q, rfl⟩ := hlink.exists_pair
  exact hlink.congr (pair_congr hpairs q)

/-- From a pair without pairs in it no other pair can be reached. -/
theorem eq_of_reaches_of_flat {q : PairRef} (hcar : ∀ p, (s.pair r).car ≠ .pair p)
    (hcdr : ∀ p, (s.pair r).cdr ≠ .pair p) (h : s.Reaches (.pair r) (.pair q)) : q = r := by
  have hflat : ∀ {w}, s.Link (.pair r) w → ∀ p, w ≠ .pair p := fun hlink => by
    cases hlink with
    | car => exact hcar
    | cdr => exact hcdr
  obtain heq | ⟨w, hlink, hrest⟩ := Relation.ReflTransGen.cases_head h
  · exact (Value.pair.inj heq).symm
  · obtain rfl | ⟨_, hlink', -⟩ := Relation.ReflTransGen.cases_head hrest
    · exact absurd rfl (hflat hlink q)
    · obtain ⟨p, rfl⟩ := hlink'.exists_pair
      exact absurd rfl (hflat hlink p)

theorem cycleFree_of_size_eq_zero (h : s.pairs.size = 0) : s.CycleFree := by
  intro r hcycle
  obtain ⟨v, -, hlink⟩ := Relation.TransGen.tail'_iff.1 hcycle
  obtain ⟨q, rfl⟩ := hlink.exists_pair
  -- All that is read of a pair which is not there is the empty list.
  have hpair : s.pair q = ⟨.nil, .nil⟩ := pair_of_le (h ▸ Nat.zero_le _)
  generalize hw : Value.pair r = w at hlink
  cases hlink <;> simp [hpair] at hw

/-! ## The change of one pair -/

section Change

variable (hne : ∀ q, q ≠ r → t.pair q = s.pair q)

include hne

/-- Only the pair that is changed has links that are new. -/
theorem eq_or_link_of_link (h : t.Link v w) : v = .pair r ∨ s.Link v w := by
  obtain ⟨q, rfl⟩ := h.exists_pair
  by_cases hq : q = r
  · exact .inl (hq ▸ rfl)
  · exact .inr (h.congr (hne q hq))

/-- A way to it takes old links only, up to its first arrival there. -/
theorem reaches_of_reaches_changed (h : t.Reaches v (.pair r)) : s.Reaches v (.pair r) := by
  induction h using Relation.ReflTransGen.head_induction_on with
  | refl => exact .refl _
  | @head v w hlink _ ih =>
    obtain rfl | hold := eq_or_link_of_link hne hlink
    · exact .refl _
    · exact .head hold ih

/-- A way that takes a new link passes it. -/
theorem transGen_or_through (h : Relation.TransGen t.Link v w) :
    Relation.TransGen s.Link v w ∨
      t.Reaches v (.pair r) ∧ Relation.TransGen t.Link (.pair r) w := by
  induction h using Relation.TransGen.head_induction_on with
  | @single v hlink =>
    obtain rfl | hold := eq_or_link_of_link hne hlink
    · exact .inr ⟨.refl _, .single hlink⟩
    · exact .inl (.single hold)
  | @head v u hlink hrest ih =>
    obtain rfl | hold := eq_or_link_of_link hne hlink
    · exact .inr ⟨.refl _, .head hlink hrest⟩
    · obtain hrest | ⟨hto, hfrom⟩ := ih
      · exact .inl (.head hold hrest)
      · exact .inr ⟨.head hlink hto, hfrom⟩

/-- The change of a pair closes no cycle if the pair cannot be reached from its
    new components. -/
theorem CycleFree.of_pair_ne (h : s.CycleFree) (hcar : ¬ s.Reaches (t.pair r).car (.pair r))
    (hcdr : ¬ s.Reaches (t.pair r).cdr (.pair r)) : t.CycleFree := by
  intro q hcycle
  obtain hold | ⟨hto, hfrom⟩ := transGen_or_through hne hcycle
  · exact h q hold
  · -- The cycle passes the pair, and so does one that begins there.
    have hround : Relation.TransGen t.Link (.pair r) (.pair r) := hfrom.trans_left hto
    obtain ⟨w, hlink, hback⟩ := Relation.TransGen.head'_iff.1 hround
    have hback := reaches_of_reaches_changed hne hback
    cases hlink with
    | car => exact hcar hback
    | cdr => exact hcdr hback

end Change

/-- A component that is kept does not reach its pair. -/
theorem CycleFree.not_reaches_of_link (h : s.CycleFree) (hlink : s.Link (.pair r) w) :
    ¬ s.Reaches w (.pair r) := fun hback => h r (.head' hlink hback)

theorem CycleFree.setCar (h : s.CycleFree) (hr : r.index < s.pairs.size)
    (hw : ¬ s.Reaches w (.pair r)) : (s.setCar r w).CycleFree := by
  refine h.of_pair_ne (fun q hq => pair_setCar_of_ne hq) ?_ ?_
  · rwa [pair_setCar_self hr]
  · rw [pair_setCar_self hr]
    exact h.not_reaches_of_link (.cdr r)

theorem CycleFree.setCdr (h : s.CycleFree) (hr : r.index < s.pairs.size)
    (hw : ¬ s.Reaches w (.pair r)) : (s.setCdr r w).CycleFree := by
  refine h.of_pair_ne (fun q hq => pair_setCdr_of_ne hq) ?_ ?_
  · rw [pair_setCdr_self hr]
    exact h.not_reaches_of_link (.car r)
  · rwa [pair_setCdr_self hr]

/-! ## New pairs -/

/-- The value is no pair, or one that is there. -/
def Holds (s : Store) (v : Value) : Prop := ∀ r, v = .pair r → r.index < s.pairs.size

/-- No pair reaches itself, and the components of all pairs are there. -/
structure Whole (s : Store) : Prop where
  cycleFree : s.CycleFree
  car : ∀ r, s.Holds (s.pair r).car
  cdr : ∀ r, s.Holds (s.pair r).cdr

theorem Holds.mono (h : s.Holds v) (hle : s.pairs.size ≤ t.pairs.size) : t.Holds v :=
  fun r hr => Nat.lt_of_lt_of_le (h r hr) hle

namespace Whole

theorem holds_of_reaches (h : s.Whole) (hv : s.Holds v) (hw : s.Reaches v w) : s.Holds w := by
  induction hw with
  | refl => exact hv
  | tail _ hlink _ =>
    cases hlink with
    | car r => exact h.car r
    | cdr r => exact h.cdr r

/-- What is there does not reach the place of the next pair. -/
theorem not_reaches_next (h : s.Whole) (hv : s.Holds v) : ¬ s.Reaches v (.pair ⟨s.pairs.size⟩) :=
  fun hreach => Nat.lt_irrefl _ (h.holds_of_reaches hv hreach _ rfl)

theorem cons (h : s.Whole) (hv : s.Holds v) (hw : s.Holds w) :
    (s.cons v w).2.Whole ∧ (s.cons v w).2.Holds (s.cons v w).1 := by
  have hsize : s.pairs.size ≤ (s.cons v w).2.pairs.size := by simp
  have hne : ∀ q : PairRef, q ≠ ⟨s.pairs.size⟩ → (s.cons v w).2.pair q = s.pair q := fun q hq =>
    pair_cons_of_ne fun heq => hq (by rw [← heq])
  have hpair : ∀ q : PairRef,
      (s.cons v w).2.pair q = ⟨v, w⟩ ∨ (s.cons v w).2.pair q = s.pair q := fun q => by
    by_cases hq : q = ⟨s.pairs.size⟩
    · rw [hq]
      exact .inl pair_cons_self
    · exact .inr (hne q hq)
  refine ⟨⟨h.cycleFree.of_pair_ne hne ?_ ?_, fun q => ?_, fun q => ?_⟩, fun r hr => ?_⟩
  · rw [pair_cons_self]
    exact h.not_reaches_next hv
  · rw [pair_cons_self]
    exact h.not_reaches_next hw
  · rcases hpair q with hq | hq <;> rw [hq]
    · exact hv.mono hsize
    · exact (h.car q).mono hsize
  · rcases hpair q with hq | hq <;> rw [hq]
    · exact hw.mono hsize
    · exact (h.cdr q).mono hsize
  · cases hr
    simp

theorem list (h : s.Whole) {items : List Value} (hitems : ∀ v ∈ items, s.Holds v) :
    (s.list items).2.Whole ∧ (s.list items).2.Holds (s.list items).1 ∧
      s.pairs.size ≤ (s.list items).2.pairs.size := by
  induction items with
  | nil => exact ⟨h, fun _ hr => (by cases hr), Nat.le_refl _⟩
  | cons v items ih =>
    obtain ⟨hv, hitems⟩ := List.forall_mem_cons.1 hitems
    obtain ⟨hwhole, hholds, hle⟩ := ih hitems
    obtain ⟨hwhole', hholds'⟩ := hwhole.cons (hv.mono hle) hholds
    exact ⟨hwhole', hholds', hle.trans (by simp [Store.list])⟩

theorem load (h : s.Whole) (d : Datum) :
    (s.load d).2.Whole ∧ (s.load d).2.Holds (s.load d).1 := by
  induction d generalizing s with
  | nil | integer | symbol => exact ⟨h, fun _ hr => (by cases hr)⟩
  | pair car cdr ihcar ihcdr =>
    obtain ⟨hwhole, hholds⟩ := ihcar h
    obtain ⟨hwhole', hholds'⟩ := ihcdr hwhole
    exact hwhole'.cons (hholds.mono (size_pairs_le_load cdr)) hholds'

end Whole

/-! ## What follows links comes to an end -/

/-- Two values are compared if one of them unfolds to a tree. -/
theorem isSome_equalUpTo {n : Nat} {tree : Tree} (h : s.Unfolds v tree) (hn : tree.height < n)
    (w : Value) : (s.equalUpTo n v w).isSome := by
  induction n generalizing v w tree with
  | zero => exact absurd hn (Nat.not_lt_zero _)
  | succ n ih =>
    cases h with
    | nil | integer | symbol | closure => rfl
    | @pair r car cdr hcar hcdr =>
      obtain ⟨hcarlt, hcdrlt⟩ := Nat.max_lt.1 (Nat.lt_of_succ_lt_succ hn)
      cases w with
      | nil | integer | symbol | closure => rfl
      | pair q =>
        rw [equalUpTo]
        split
        · rfl
        · obtain ⟨answer, hanswer⟩ :=
            Option.isSome_iff_exists.1 (ih hcar hcarlt (s.pair q).car)
          rw [hanswer]
          cases answer
          · rfl
          · exact ih hcdr hcdrlt _

theorem isSome_equal? {tree : Tree} (h : s.Unfolds v tree)
    (hheight : tree.height ≤ s.pairs.size + 1) (w : Value) : (s.equal? v w).isSome := by
  refine isSome_equalUpTo h (Nat.lt_succ_of_le (hheight.trans ?_)) w
  exact Nat.le_mul_of_pos_left _ (Nat.succ_pos _)

/-- A tree is no higher than its chain is long. -/
theorem isSome_elementsUpTo_of_unfolds {n : Nat} {tree : Tree} (h : s.Unfolds v tree)
    (hn : tree.height ≤ n) : (s.elementsUpTo n v).isSome := by
  induction n generalizing v tree with
  | zero =>
    cases h with
    | nil | integer | symbol | closure => rfl
    | pair => exact absurd hn (Nat.not_succ_le_zero _)
  | succ n ih =>
    cases h with
    | nil | integer | symbol | closure => rfl
    | @pair r car cdr _ hcdr =>
      rw [elementsUpTo, Option.isSome_map]
      exact ih hcdr (Nat.max_le.1 (Nat.le_of_succ_le_succ hn)).2

/-- Printing an acyclic value, comparing it to another one and taking it apart as a list all
    come to an end. -/
theorem Acyclic.ends (h : s.Acyclic v) :
    (s.render? v).isSome ∧ (s.display? v).isSome ∧ (∀ w, (s.equal? v w).isSome) ∧
      (s.elements? v).isSome := by
  obtain ⟨tree, hunfold, hheight⟩ := exists_unfolds_of_acyclic h
  refine ⟨?_, ?_, isSome_equal? hunfold hheight, isSome_elementsUpTo_of_unfolds hunfold hheight⟩
  · rw [render?_eq_some hunfold hheight]
    rfl
  · rw [display?_eq_some hunfold hheight]
    rfl

theorem CycleFree.ends (h : s.CycleFree) (v : Value) :
    (s.render? v).isSome ∧ (s.display? v).isSome ∧ (∀ w, (s.equal? v w).isSome) ∧
      (s.elements? v).isSome :=
  (h.acyclic v).ends

end Store

end SmallScheme
