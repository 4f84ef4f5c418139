import SmallScheme.Proofs.Store.Reach
import SmallScheme.Proofs.Store.Update

/-!
# Unfolding

The *unfolding* of a value is the tree that it looks like to those who cannot
tell one pair from another: the places of pairs are left out, and a pair that is
shared stands in as many places as it is reached by (`Store.Unfolds`). Two
values are structurally equal if they have the same unfolding.

An acyclic value has one (`exists_unfolds_of_acyclic`), which is no higher than
there are pairs, but for one place where there is no pair: on any way down, fewer
and fewer pairs can still be reached (`Store.within`).
-/

namespace SmallScheme

/-- A value without the places of its pairs. -/
inductive Tree where
  /-- The empty list. -/
  | nil
  /-- An integer. -/
  | integer (n : Fixnum)
  /-- A symbol, by its name. -/
  | symbol (name : String)
  /-- A closure, which is not unfolded. -/
  | closure (ref : ClosureRef)
  /-- A pair. -/
  | pair (car cdr : Tree)
deriving DecidableEq, Repr

/-- How many pairs there are at most on a way down. -/
def Tree.height : Tree → Nat
  | nil | integer _ | symbol _ | closure _ => 0
  | pair car cdr => max car.height cdr.height + 1

/-- The tree of a datum. -/
def Datum.tree : Datum → Tree
  | nil => .nil
  | integer n => .integer n
  | symbol name => .symbol name
  | pair car cdr => .pair car.tree cdr.tree

theorem Datum.tree_injective : Function.Injective tree := by
  intro d e h
  induction d generalizing e with
  | nil | integer | symbol => cases e <;> simp_all [tree]
  | pair car cdr ihcar ihcdr =>
    cases e with
    | nil | integer | symbol => cases h
    | pair car' cdr' =>
      obtain ⟨hcar, hcdr⟩ := Tree.pair.inj h
      rw [ihcar hcar, ihcdr hcdr]

namespace Store

/-- The tree that a value unfolds to. -/
inductive Unfolds (s : Store) : Value → Tree → Prop
  | nil : Unfolds s .nil .nil
  | integer (n : Fixnum) : Unfolds s (.integer n) (.integer n)
  | symbol (name : String) : Unfolds s (.symbol name) (.symbol name)
  | closure (ref : ClosureRef) : Unfolds s (.closure ref) (.closure ref)
  | pair {r : PairRef} {car cdr : Tree} : Unfolds s (s.pair r).car car →
      Unfolds s (s.pair r).cdr cdr → Unfolds s (.pair r) (.pair car cdr)

variable {s t : Store} {v w : Value} {tree : Tree}

theorem Unfolds.unique {tree' : Tree} (h : s.Unfolds v tree) (h' : s.Unfolds v tree') :
    tree = tree' := by
  induction h generalizing tree' with
  | nil | integer | symbol | closure =>
    cases h'
    rfl
  | pair _ _ ihcar ihcdr =>
    cases h' with
    | pair hcar hcdr => rw [ihcar hcar, ihcdr hcdr]

/-! ## Acyclic values -/

/-- A component of a pair has a lower unfolding than the pair. -/
theorem Unfolds.of_link (h : s.Unfolds v tree) (hw : s.Link v w) :
    ∃ tree', s.Unfolds w tree' ∧ tree'.height < tree.height := by
  cases hw with
  | car r =>
    cases h with
    | pair hcar hcdr => exact ⟨_, hcar, Nat.lt_succ_of_le (Nat.le_max_left _ _)⟩
  | cdr r =>
    cases h with
    | pair hcar hcdr => exact ⟨_, hcdr, Nat.lt_succ_of_le (Nat.le_max_right _ _)⟩

theorem Unfolds.of_reaches (h : s.Unfolds v tree) (hw : s.Reaches v w) :
    ∃ tree', s.Unfolds w tree' ∧ tree'.height ≤ tree.height := by
  induction hw with
  | refl => exact ⟨tree, h, Nat.le_refl _⟩
  | tail _ hlink ih =>
    obtain ⟨tree', h', hle⟩ := ih
    obtain ⟨tree'', h'', hlt⟩ := h'.of_link hlink
    exact ⟨tree'', h'', hlt.le.trans hle⟩

/-- Whatever can be unfolded is acyclic: no tree is lower than itself. -/
theorem Unfolds.acyclic (h : s.Unfolds v tree) : s.Acyclic v := by
  intro r hr hcycle
  obtain ⟨tree', h', -⟩ := h.of_reaches hr
  -- The first link of a cycle leads to a lower tree, and the others lead back.
  obtain ⟨w, hlink, hback⟩ := Relation.TransGen.head'_iff.1 hcycle
  obtain ⟨lower, hlower, hlt⟩ := h'.of_link hlink
  obtain ⟨again, hagain, hle⟩ := hlower.of_reaches hback
  rw [hagain.unique h'] at hle
  exact Nat.lt_irrefl _ (hlt.trans_le hle)

theorem Acyclic.of_link (h : s.Acyclic v) (hw : s.Link v w) : s.Acyclic w :=
  h.of_reaches (.single hw)

open Classical in
/-- The pairs of the store that can be reached from a value, by number. -/
noncomputable def within (s : Store) (v : Value) : Finset Nat :=
  (Finset.range s.pairs.size).filter fun i => s.Reaches v (.pair ⟨i⟩)

theorem mem_within {i : Nat} : i ∈ s.within v ↔ i < s.pairs.size ∧ s.Reaches v (.pair ⟨i⟩) := by
  simp [within]

theorem card_within_le (s : Store) (v : Value) : (s.within v).card ≤ s.pairs.size := by
  calc (s.within v).card
    _ ≤ (Finset.range s.pairs.size).card :=
      Finset.card_le_card fun _ hi => Finset.mem_range.2 (mem_within.1 hi).1
    _ = s.pairs.size := Finset.card_range _

/-- One link on, the pair that has been left cannot be reached any more. -/
theorem card_within_lt {r : PairRef} (h : s.Acyclic (.pair r)) (hr : r.index < s.pairs.size)
    (hw : s.Link (.pair r) w) : (s.within w).card < (s.within (.pair r)).card := by
  refine Finset.card_lt_card ((Finset.ssubset_iff_of_subset fun i hi => ?_).2
    ⟨r.index, mem_within.2 ⟨hr, .refl _⟩, fun hmem => ?_⟩)
  · obtain ⟨hlt, hreach⟩ := mem_within.1 hi
    exact mem_within.2 ⟨hlt, hreach.head hw⟩
  · exact h r (.refl _) (.head' hw (mem_within.1 hmem).2)

/-- An acyclic value has an unfolding, and its height is bounded. -/
theorem exists_unfolds_within (h : s.Acyclic v) :
    ∃ tree, s.Unfolds v tree ∧ tree.height ≤ (s.within v).card + 1 := by
  -- On the number of pairs within reach, which is smaller for the components.
  induction hn : (s.within v).card using Nat.strong_induction_on generalizing v with
  | _ n ih =>
    subst hn
    cases v with
    | nil => exact ⟨_, .nil, Nat.zero_le _⟩
    | integer n => exact ⟨_, .integer n, Nat.zero_le _⟩
    | symbol name => exact ⟨_, .symbol name, Nat.zero_le _⟩
    | closure ref => exact ⟨_, .closure ref, Nat.zero_le _⟩
    | pair r =>
      by_cases hr : r.index < s.pairs.size
      · have hcar := card_within_lt h hr (.car r)
        have hcdr := card_within_lt h hr (.cdr r)
        obtain ⟨car, hunfold, hle⟩ := ih _ hcar (h.of_link (.car r)) rfl
        obtain ⟨cdr, hunfold', hle'⟩ := ih _ hcdr (h.of_link (.cdr r)) rfl
        refine ⟨_, .pair hunfold hunfold', ?_⟩
        rw [Tree.height]
        omega
      · -- Where there is no pair, the way down ends.
        have hpair := pair_of_le (Nat.le_of_not_lt hr)
        refine ⟨.pair .nil .nil, .pair ?_ ?_, Nat.le_add_left _ _⟩
        · rw [hpair]
          exact .nil
        · rw [hpair]
          exact .nil

theorem exists_unfolds_of_acyclic (h : s.Acyclic v) :
    ∃ tree, s.Unfolds v tree ∧ tree.height ≤ s.pairs.size + 1 := by
  obtain ⟨tree, hunfold, hheight⟩ := exists_unfolds_within h
  exact ⟨tree, hunfold, hheight.trans (Nat.succ_le_succ (card_within_le s v))⟩

/-! ## Unfolding stored data -/

/-- A stored datum unfolds to itself, also when more pairs have been made
    since. -/
theorem unfolds_load_of_forall_lt (d : Datum)
    (h : ∀ r, r.index < (s.load d).2.pairs.size → t.pair r = (s.load d).2.pair r) :
    t.Unfolds (s.load d).1 d.tree := by
  induction d generalizing s with
  | nil => exact .nil
  | integer n => exact .integer n
  | symbol name => exact .symbol name
  | pair car cdr ihcar ihcdr =>
    have hsize : (s.load (.pair car cdr)).2.pairs.size =
        ((s.load car).2.load cdr).2.pairs.size + 1 := size_pairs_cons
    have hcdr : ∀ r, r.index < ((s.load car).2.load cdr).2.pairs.size →
        t.pair r = ((s.load car).2.load cdr).2.pair r := by
      intro r hr
      rw [h r (by omega), load, pair_cons_of_ne (Nat.ne_of_lt hr)]
    have hcar : ∀ r, r.index < (s.load car).2.pairs.size → t.pair r = (s.load car).2.pair r := by
      intro r hr
      rw [hcdr r (Nat.lt_of_lt_of_le hr (size_pairs_le_load cdr)), pair_load_of_lt cdr hr]
    -- The pair itself is made last.
    have hpair : t.pair ⟨((s.load car).2.load cdr).2.pairs.size⟩ =
        ⟨(s.load car).1, ((s.load car).2.load cdr).1⟩ := by
      rw [h ⟨_⟩ (by simp [hsize])]
      exact pair_cons_self
    refine .pair ?_ ?_
    · rw [hpair]
      exact ihcar hcar
    · rw [hpair]
      exact ihcdr hcdr

theorem unfolds_load (s : Store) (d : Datum) : (s.load d).2.Unfolds (s.load d).1 d.tree :=
  unfolds_load_of_forall_lt d fun _ _ => rfl

end Store

end SmallScheme
