import SmallScheme.Proofs.Renaming

/-!
# Two stores side by side

A `World` is two stores, some places of which stand for each other, one to one.
At such places the same is kept, up to the renaming; and what is still free
counts the same on both sides. So whatever is done on one side, starting from such
places, can be done on the other side as well, and leads to another world: one
in which the same places stand for each other, and those that have been made
since (`World.Extends`). All other places are left alone.

Changes are made on both sides at once: another cell is put at two places that stand
for each other (`World.replace`), or a new one at the next free places, which
stand for each other from then on (`World.add`).

Two sorts of worlds are of interest. In an *exact* one, places stand for
themselves only; it says what two runs have to do with each other in stores that
differ out of reach. In a *nested* one, the frames around a frame have smaller
numbers; it says what becomes of a run if the numbers are others.
-/

namespace SmallScheme

/-- There is a frame at `f`, and the frame around it was there first. -/
def Store.Nested (s : Store) (f : FrameRef) : Prop :=
  s.Has (.frame f) ∧ ∀ g, (s.frame f).outer = some g → g.index < f.index

namespace Renaming

/-- Places stand for themselves only, and the free ones are the same. -/
structure Exact (ρ : Renaming) (s t : Store) : Prop where
  eq : ∀ p q, ρ p q → p = q
  count : ∀ k, s.count k = t.count k

/-- Links lead from frame to frame in the order in which they were made. -/
def Nested (ρ : Renaming) (s t : Store) : Prop :=
  ∀ f g, ρ (.frame f) (.frame g) → s.Nested f ∧ t.Nested g

/-- A renaming that one more place is added to, on each side. -/
def add (ρ : Renaming) (p q : Place) : Renaming := fun p' q' => ρ p' q' ∨ p' = p ∧ q' = q

theorem le_add (ρ : Renaming) (p q : Place) : ρ ≤ ρ.add p q := fun _ _ h => .inl h

end Renaming

/-- Two stores with places that stand for each other. -/
structure World where
  /-- One of the stores. -/
  left : Store
  /-- The other one. -/
  right : Store
  /-- The places that stand for each other. -/
  rel : Renaming
  /-- No place stands for two others. -/
  unique : ∀ {p q p' q' : Place}, rel p q → rel p' q' → (p = p' ↔ q = q')
  /-- The same is kept there. -/
  alike : ∀ {p q : Place}, rel p q → rel.OnCell (left.cell p) (right.cell q)
  /-- A place that is still free stands for one that will be used as soon. -/
  beyond : ∀ {p q : Place}, rel p q → ∀ k,
    p.index = left.count p.kind + k ↔ q.index = right.count q.kind + k
  /-- Scopes are searched as far on both sides. -/
  exact_or_nested : rel.Exact left right ∨ rel.Nested left right

theorem Renaming.OnCell.kind_eq {ρ : Renaming} {s t : Store} {p q : Place}
    (h : ρ.OnCell (s.cell p) (t.cell q)) : p.kind = q.kind := by
  cases p <;> cases q
  case pair.pair | closure.closure | frame.frame => rfl
  all_goals cases h

namespace World

variable {W W' W'' : World} {p q : Place}

theorem kind_eq (h : W.rel p q) : p.kind = q.kind := (W.alike h).kind_eq

/-- There is something at both of two places that stand for each other, or at
    none of them. -/
theorem has_iff (h : W.rel p q) : W.left.Has p ↔ W.right.Has q := by
  constructor
  · intro hp
    by_contra hq
    obtain ⟨k, hk⟩ := Nat.exists_eq_add_of_le (Nat.le_of_not_lt hq)
    exact absurd hp (Nat.not_lt.2 (Nat.le.intro ((W.beyond h k).2 hk).symm))
  · intro hq
    by_contra hp
    obtain ⟨k, hk⟩ := Nat.exists_eq_add_of_le (Nat.le_of_not_lt hp)
    exact absurd hq (Nat.not_lt.2 (Nat.le.intro ((W.beyond h k).1 hk).symm))

/-! ## What may come of a world -/

/-- In the second world, more has been made than in the first, and nothing is changed
    but what stood for something there. -/
structure Extends (W W' : World) : Prop where
  /-- What stood for each other still does. -/
  le : W.rel ≤ W'.rel
  /-- What does so now was made since. -/
  new : ∀ p q, W'.rel p q → W.rel p q ∨
    (¬W.left.Has p ∧ W'.left.Has p) ∧ ¬W.right.Has q ∧ W'.right.Has q
  /-- Nothing is lost on the left. -/
  left_count : ∀ k, W.left.count k ≤ W'.left.count k
  /-- Nothing is lost on the right. -/
  right_count : ∀ k, W.right.count k ≤ W'.right.count k
  /-- What stood for nothing on the left is as it was. -/
  left_cell : ∀ p, W.left.Has p → (∀ q, ¬W.rel p q) → W'.left.cell p = W.left.cell p
  /-- What nothing stood for on the right is as it was. -/
  right_cell : ∀ q, W.right.Has q → (∀ p, ¬W.rel p q) → W'.right.cell q = W.right.cell q
  /-- An exact world stays exact. -/
  exact : W.rel.Exact W.left W.right → W'.rel.Exact W'.left W'.right
  /-- A nested world stays nested. -/
  nested : W.rel.Nested W.left W.right → W'.rel.Nested W'.left W'.right

namespace Extends

theorem refl (W : World) : W.Extends W where
  le := le_refl _
  new _ _ := .inl
  left_count _ := Nat.le_refl _
  right_count _ := Nat.le_refl _
  left_cell _ _ _ := rfl
  right_cell _ _ _ := rfl
  exact h := h
  nested h := h

theorem left_has (h : W.Extends W') (hp : W.left.Has p) : W'.left.Has p :=
  Nat.lt_of_lt_of_le hp (h.left_count _)

theorem right_has (h : W.Extends W') (hq : W.right.Has q) : W'.right.Has q :=
  Nat.lt_of_lt_of_le hq (h.right_count _)

theorem trans (h : W.Extends W') (h' : W'.Extends W'') : W.Extends W'' where
  le := le_trans h.le h'.le
  new p q hpq := by
    obtain hpq | ⟨⟨hp, hp''⟩, hq, hq''⟩ := h'.new p q hpq
    · refine (h.new p q hpq).imp_right fun hnew => ?_
      obtain ⟨⟨hp, hp'⟩, hq, hq'⟩ := hnew
      exact ⟨⟨hp, h'.left_has hp'⟩, hq, h'.right_has hq'⟩
    · exact .inr ⟨⟨mt h.left_has hp, hp''⟩, mt h.right_has hq, hq''⟩
  left_count k := Nat.le_trans (h.left_count k) (h'.left_count k)
  right_count k := Nat.le_trans (h.right_count k) (h'.right_count k)
  left_cell p hp hnone := by
    -- Nothing comes to stand for what was there already.
    have hnone' : ∀ q, ¬W'.rel p q := fun q hpq => (h.new p q hpq).elim (hnone q) fun hnew =>
      hnew.1.1 hp
    exact (h'.left_cell p (h.left_has hp) hnone').trans (h.left_cell p hp hnone)
  right_cell q hq hnone := by
    have hnone' : ∀ p, ¬W'.rel p q := fun p hpq => (h.new p q hpq).elim (hnone p) fun hnew =>
      hnew.2.1 hq
    exact (h'.right_cell q (h.right_has hq) hnone').trans (h.right_cell q hq hnone)
  exact hexact := h'.exact (h.exact hexact)
  nested hnested := h'.nested (h.nested hnested)

end Extends

/-! ## Another cell at places that stand for each other -/

section Replace

variable {c d : Cell} {s t : Store}

theorem nested_replace {f : FrameRef} (hs : s.Nested f) (h : s.Replaces p c t) : t.Nested f := by
  refine ⟨?_, fun g hg => hs.2 g ?_⟩
  · exact Nat.lt_of_lt_of_eq hs.1 (h.count _).symm
  · change (t.cell (.frame f)).outer = some g at hg
    change (s.cell (.frame f)).outer = some g
    by_cases hp : .frame f = p
    · subst hp
      rwa [h.cell_self, h.outer] at hg
    · rwa [h.cell_of_ne _ hp] at hg

theorem exact_replace (hs : W.left.Replaces p c s) (ht : W.right.Replaces q d t)
    (h : W.rel.Exact W.left W.right) : W.rel.Exact s t where
  eq := h.eq
  count k := by rw [hs.count, ht.count, h.count]

theorem nested_rel_replace (hs : W.left.Replaces p c s) (ht : W.right.Replaces q d t)
    (h : W.rel.Nested W.left W.right) : W.rel.Nested s t :=
  fun f g hfg => ⟨nested_replace (h f g hfg).1 hs, nested_replace (h f g hfg).2 ht⟩

/-- The world in which the cells `c` and `d` have been put at `p` and `q`. -/
def replace (W : World) (hpq : W.rel p q) (hs : W.left.Replaces p c s)
    (ht : W.right.Replaces q d t) (hcd : W.rel.OnCell c d) : World where
  left := s
  right := t
  rel := W.rel
  unique := W.unique
  alike {p' q'} h := by
    by_cases hp : p' = p
    · have hq : q' = q := (W.unique h hpq).1 hp
      rwa [hp, hq, hs.cell_self, ht.cell_self]
    · have hq : q' ≠ q := mt (W.unique h hpq).2 hp
      rw [hs.cell_of_ne _ hp, ht.cell_of_ne _ hq]
      exact W.alike h
  beyond h k := by
    rw [hs.count, ht.count]
    exact W.beyond h k
  exact_or_nested := W.exact_or_nested.imp (exact_replace hs ht) (nested_rel_replace hs ht)

theorem extends_replace (hpq : W.rel p q) (hs : W.left.Replaces p c s)
    (ht : W.right.Replaces q d t) (hcd : W.rel.OnCell c d) :
    W.Extends (W.replace hpq hs ht hcd) where
  le := le_refl _
  new _ _ := .inl
  left_count k := Nat.le_of_eq (hs.count k).symm
  right_count k := Nat.le_of_eq (ht.count k).symm
  left_cell _ _ hnone := hs.cell_of_ne _ fun h => hnone q (h ▸ hpq)
  right_cell _ _ hnone := ht.cell_of_ne _ fun h => hnone p (h ▸ hpq)
  exact := exact_replace hs ht
  nested := nested_rel_replace hs ht

end Replace

/-! ## Something new -/

section Add

variable {c d : Cell} {s t : Store}

theorem has_of_adds (h : s.Adds p c t) : t.Has p := by
  rw [Store.Has, h.count, if_pos rfl, h.next]
  exact Nat.lt_succ_self _

theorem not_has_of_adds (h : s.Adds p c t) : ¬s.Has p := fun hp => Nat.ne_of_lt hp h.next

theorem count_le_of_adds (h : s.Adds p c t) (k : Kind) : s.count k ≤ t.count k := by
  rw [h.count]
  exact Nat.le_add_right _ _

theorem nested_add {f : FrameRef} (hs : s.Nested f) (h : s.Adds p c t) : t.Nested f := by
  have hne : .frame f ≠ p := fun hp => not_has_of_adds h (hp ▸ hs.1)
  refine ⟨Nat.lt_of_lt_of_le hs.1 (count_le_of_adds h _), fun g hg => hs.2 g ?_⟩
  change (t.cell (.frame f)).outer = some g at hg
  rwa [h.cell_of_ne _ hne] at hg

/-- A new frame is inside one that is there. -/
theorem nested_new {f : FrameRef} (h : s.Adds (.frame f) c t)
    (hc : ∀ g, c.outer = some g → s.Has (.frame g)) : t.Nested f := by
  refine ⟨has_of_adds h, fun g hg => ?_⟩
  change (t.cell (.frame f)).outer = some g at hg
  rw [h.cell_self] at hg
  exact Nat.lt_of_lt_of_eq (hc g hg) h.next.symm

theorem kind_eq_of_adds {s' t' : Store} {ρ : Renaming} (hs : s'.Adds p c s) (ht : t'.Adds q d t)
    (hcd : ρ.OnCell c d) : p.kind = q.kind :=
  (hs.cell_self ▸ ht.cell_self ▸ hcd).kind_eq

/-- Two places of one kind that are the next free ones stand for each other
    already, or stand for nothing. -/
theorem eq_iff_of_next (hkind : p.kind = q.kind) (hp : p.index = W.left.count p.kind)
    (hq : q.index = W.right.count q.kind) {p' q' : Place} (h : W.rel p' q') : p' = p ↔ q' = q := by
  have hbeyond := W.beyond h 0
  constructor
  · rintro rfl
    exact Place.eq_of_index_eq (hkind ▸ (kind_eq h).symm) (by
      rw [hbeyond.1 hp, hq, ← kind_eq h, hkind, Nat.add_zero])
  · rintro rfl
    exact Place.eq_of_index_eq (hkind ▸ kind_eq h) (by
      rw [hbeyond.2 hq, hp, kind_eq h, hkind, Nat.add_zero])

theorem exact_add (hs : W.left.Adds p c s) (ht : W.right.Adds q d t) (hkind : p.kind = q.kind)
    (h : W.rel.Exact W.left W.right) : (W.rel.add p q).Exact s t where
  eq p' q' hpq := by
    obtain hpq | ⟨rfl, rfl⟩ := hpq
    · exact h.eq _ _ hpq
    · exact Place.eq_of_index_eq hkind (by rw [hs.next, ht.next, h.count, hkind])
  count k := by rw [hs.count, ht.count, h.count, hkind]

theorem nested_rel_add (hs : W.left.Adds p c s) (ht : W.right.Adds q d t)
    (hcd : W.rel.OnCell c d) (h : W.rel.Nested W.left W.right) : (W.rel.add p q).Nested s t := by
  intro f g hfg
  obtain hfg | ⟨rfl, rfl⟩ := hfg
  · exact ⟨nested_add (h f g hfg).1 hs, nested_add (h f g hfg).2 ht⟩
  · -- The frames around the new ones stand for each other, so they are there.
    cases hcd with
    | pair | closure => exact absurd hs.cell_self nofun
    | @frame F G hFG =>
      obtain ⟨outer, _⟩ := F
      obtain ⟨outer', _⟩ := G
      cases hFG.outer with
      | none => exact ⟨nested_new hs nofun, nested_new ht nofun⟩
      | some hrel =>
        obtain ⟨⟨hleft, -⟩, hright, -⟩ := h _ _ hrel
        refine ⟨nested_new hs fun o ho => ?_, nested_new ht fun o ho => ?_⟩
        · cases ho
          exact hleft
        · cases ho
          exact hright

/-- The world in which `p` and `q` have been made, with the cells `c` and `d`. -/
def add (W : World) (hs : W.left.Adds p c s) (ht : W.right.Adds q d t)
    (hcd : W.rel.OnCell c d) : World where
  left := s
  right := t
  rel := W.rel.add p q
  unique {p₁ q₁ p₂ q₂} h h' := by
    have hnext := fun {p' q'} (h : W.rel p' q') =>
      eq_iff_of_next (kind_eq_of_adds hs ht hcd) hs.next ht.next h
    obtain h | ⟨rfl, rfl⟩ := h
    · obtain h' | ⟨rfl, rfl⟩ := h'
      · exact W.unique h h'
      · exact hnext h
    · obtain h' | ⟨rfl, rfl⟩ := h'
      · rw [eq_comm, hnext h', eq_comm]
      · exact iff_of_true rfl rfl
  alike {p' q'} h := by
    have hnew := hcd.mono (W.rel.le_add p q)
    obtain h | ⟨rfl, rfl⟩ := h
    · have hnext := eq_iff_of_next (kind_eq_of_adds hs ht hcd) hs.next ht.next h
      by_cases hp : p' = p
      · rwa [hp, hnext.1 hp, hs.cell_self, ht.cell_self]
      · rw [hs.cell_of_ne _ hp, ht.cell_of_ne _ (mt hnext.2 hp)]
        exact (W.alike h).mono (W.rel.le_add p q)
    · rwa [hs.cell_self, ht.cell_self]
  beyond {p' q'} h k := by
    have hkind := kind_eq_of_adds hs ht hcd
    obtain h | ⟨rfl, rfl⟩ := h
    · rw [hs.count, ht.count, hkind, ← kind_eq h, Nat.add_assoc, Nat.add_assoc]
      have hbeyond := W.beyond h ((if p'.kind = q.kind then 1 else 0) + k)
      rwa [← kind_eq h] at hbeyond
    · rw [hs.count, ht.count, if_pos rfl, if_pos rfl, hs.next, ht.next]
      omega
  exact_or_nested := W.exact_or_nested.imp (exact_add hs ht (kind_eq_of_adds hs ht hcd))
    (nested_rel_add hs ht hcd)

theorem extends_add (hs : W.left.Adds p c s) (ht : W.right.Adds q d t) (hcd : W.rel.OnCell c d) :
    W.Extends (W.add hs ht hcd) where
  le := W.rel.le_add p q
  new p' q' h := h.imp_right fun heq => by
    rw [heq.1, heq.2]
    exact ⟨⟨not_has_of_adds hs, has_of_adds hs⟩, not_has_of_adds ht, has_of_adds ht⟩
  left_count := count_le_of_adds hs
  right_count := count_le_of_adds ht
  left_cell p' hp _ := hs.cell_of_ne _ fun h => not_has_of_adds hs (h ▸ hp)
  right_cell q' hq _ := ht.cell_of_ne _ fun h => not_has_of_adds ht (h ▸ hq)
  exact := exact_add hs ht (kind_eq_of_adds hs ht hcd)
  nested := nested_rel_add hs ht hcd

end Add

end World

end SmallScheme
