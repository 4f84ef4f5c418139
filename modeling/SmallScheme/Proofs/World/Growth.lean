import SmallScheme.Proofs.Confinement

/-!
# Growing apart

What two runs make need not come in the same order, and one may make things that have no
counterpart in the other. Where nothing else happens than that more is made, stores
*grow* (`Store.Grows`): what was there is as it was. So any world in which frames are
nested and all places are in use (`World.Settled`) stays one if the two stores grow, each
in its own way (`World.exists_grown`); the same places stand for each other, and the new ones
for nothing yet.

From such a world to another, what comes to stand for each other was in use on neither
side (`World.Leads`). This is what is left of `World.Extends` when the two stores no
longer have the same free places.

A settled world can be made from a store in which nothing is out of order within reach
of what one starts from (`Store.Sound`, `World.exists_settled`). The state of a session
is always sound (`Interpreter.sound_of_runAll`).
-/

namespace SmallScheme

open StoreM

/-- In `t`, more may have been made than in `s`; what there was is as it was. -/
structure Store.Grows (s t : Store) : Prop where
  /-- Nothing is lost. -/
  count : ∀ k, s.count k ≤ t.count k
  /-- Nothing is changed. -/
  cell : ∀ p, s.Has p → t.cell p = s.cell p

namespace Store

variable {s t u : Store} {p : Place} {c : Cell}

namespace Grows

theorem refl (s : Store) : s.Grows s := ⟨fun _ => Nat.le_refl _, fun _ _ => rfl⟩

theorem has (h : s.Grows t) (hp : s.Has p) : t.Has p := Nat.lt_of_lt_of_le hp (h.count _)

theorem trans (h : s.Grows t) (h' : t.Grows u) : s.Grows u where
  count k := Nat.le_trans (h.count k) (h'.count k)
  cell p hp := (h'.cell p (h.has hp)).trans (h.cell p hp)

theorem pair {r : PairRef} (h : s.Grows t) (hr : r.index < s.pairs.size) : t.pair r = s.pair r :=
  Cell.pair.inj (h.cell (.pair r) hr)

theorem nested {f : FrameRef} (h : s.Grows t) (hf : s.Nested f) : t.Nested f := by
  refine ⟨h.has hf.1, fun g hg => hf.2 g ?_⟩
  rwa [← Cell.frame.inj (h.cell (.frame f) hf.1)]

end Grows

theorem Adds.grows (h : s.Adds p c t) : s.Grows t where
  count := World.count_le_of_adds h
  cell q hq := h.cell_of_ne q fun hqp => World.not_has_of_adds h (hqp ▸ hq)

/-- All but the new place was there before. -/
theorem Adds.has_of_ne {q : Place} (h : s.Adds p c t) (hq : t.Has q) (hne : q ≠ p) : s.Has q := by
  have hcount := h.count q.kind
  split at hcount
  case isTrue hkind =>
    refine Nat.lt_of_le_of_ne (Nat.le_of_lt_succ (Nat.lt_of_lt_of_eq hq hcount)) fun heq => ?_
    exact hne (Place.eq_of_index_eq hkind (by rw [heq, hkind, h.next]))
  case isFalse => exact Nat.lt_of_lt_of_eq hq hcount

theorem grows_cons (v w : Value) : s.Grows (s.cons v w).2 := (adds_cons v w).grows

theorem pair_of_grows {v w : Value} (h : (s.cons v w).2.Grows t) :
    t.pair ⟨s.pairs.size⟩ = ⟨v, w⟩ :=
  (h.pair (Nat.lt_of_lt_of_eq (Nat.lt_succ_self _) size_pairs_cons.symm)).trans pair_cons_self

theorem grows_load (d : Datum) : s.Grows (s.load d).2 := by
  induction d generalizing s with
  | nil | integer | symbol => exact .refl s
  | pair car cdr ihcar ihcdr => exact ihcar.trans (ihcdr.trans (grows_cons _ _))

end Store

/-- Whatever can be reached from `roots` is in use, and the frames around a frame were there
    before it. -/
def Store.Sound (s : Store) (roots : Place → Prop) : Prop :=
  ∀ p, s.Reachable roots p → s.Has p ∧ ∀ f, p = .frame f → s.Nested f

namespace World

variable {W W' W'' : World}

/-- All places that stand for each other are in use, and links lead from frame to frame in
    the order in which they were made. -/
structure Settled (W : World) : Prop where
  /-- Nothing stands for a free place. -/
  inside : W.Inside
  /-- The frames around a frame were there first. -/
  nested : W.rel.Nested W.left W.right

theorem Extends.settled (h : W.Extends W') (hW : W.Settled) : W'.Settled :=
  ⟨h.inside hW.inside, h.nested hW.nested⟩

/-- In a settled world, what stands for something is sound, and all that it leads to. -/
theorem Settled.sound (hW : W.Settled) {roots : Place → Prop}
    (hroots : ∀ p, roots p → ∃ q, W.rel p q) : W.left.Sound roots := by
  intro p hp
  obtain ⟨q, hpq⟩ := exists_rel_of_reachable hroots hp
  refine ⟨(hW.inside p q hpq).1, ?_⟩
  rintro f rfl
  cases q with
  | frame g => exact (hW.nested f g hpq).1
  | pair | closure => exact absurd (kind_eq hpq) nofun

/-- A sound store makes a settled world, in which the places within reach stand for
    themselves. -/
theorem exists_settled {s : Store} {roots : Place → Prop} (hs : s.Sound roots) :
    ∃ W : World, W.left = s ∧ W.right = s ∧
      (∀ p q, W.rel p q ↔ s.Reachable roots p ∧ p = q) ∧ W.Settled := by
  obtain ⟨W, rfl, hright, hrel, -⟩ := exists_within (.refl s roots)
  refine ⟨W, rfl, hright, hrel, fun p q hpq => ?_, fun f g hfg => ?_⟩
  · obtain ⟨hp, rfl⟩ := (hrel p q).1 hpq
    exact ⟨(hs p hp).1, hright ▸ (hs p hp).1⟩
  · obtain ⟨hf, heq⟩ := (hrel _ _).1 hfg
    obtain rfl := Place.frame.inj heq
    exact ⟨(hs _ hf).2 f rfl, hright ▸ (hs _ hf).2 f rfl⟩

/-- What stands for each other in the second world did so in the first, or is new. -/
structure Leads (W W' : World) : Prop where
  /-- What stood for each other still does. -/
  le : W.rel ≤ W'.rel
  /-- What does so now was made since. -/
  new : ∀ p q, W'.rel p q → W.rel p q ∨ ¬W.left.Has p ∧ ¬W.right.Has q
  /-- Nothing is lost on the left. -/
  left_count : ∀ k, W.left.count k ≤ W'.left.count k
  /-- Nothing is lost on the right. -/
  right_count : ∀ k, W.right.count k ≤ W'.right.count k

theorem Extends.leads (h : W.Extends W') : W.Leads W' where
  le := h.le
  new p q hpq := (h.new p q hpq).imp_right fun hnew => ⟨hnew.1.1, hnew.2.1⟩
  left_count := h.left_count
  right_count := h.right_count

/-- Where places stand for nothing but themselves, this is still so for all that was there. -/
theorem Leads.eq_of_has (h : W.Leads W') (hself : ∀ p q, W.rel p q → p = q) {p q : Place}
    (hpq : W'.rel p q) (hhas : W.left.Has p ∨ W.right.Has q) : p = q := by
  obtain hpq | ⟨hp, hq⟩ := h.new p q hpq
  · exact hself p q hpq
  · exact absurd hhas (not_or.2 ⟨hp, hq⟩)

theorem Leads.trans (h : W.Leads W') (h' : W'.Leads W'') : W.Leads W'' where
  le := le_trans h.le h'.le
  new p q hpq := by
    obtain hpq | ⟨hp, hq⟩ := h'.new p q hpq
    · exact h.new p q hpq
    · exact .inr ⟨fun hhas => hp (Nat.lt_of_lt_of_le hhas (h.left_count _)),
        fun hhas => hq (Nat.lt_of_lt_of_le hhas (h.right_count _))⟩
  left_count k := Nat.le_trans (h.left_count k) (h'.left_count k)
  right_count k := Nat.le_trans (h.right_count k) (h'.right_count k)

/-- Both stores may grow, each in its own way. -/
theorem exists_grown (hW : W.Settled) {s t : Store} (hs : W.left.Grows s) (ht : W.right.Grows t) :
    ∃ W' : World, W'.left = s ∧ W'.right = t ∧ W'.rel = W.rel ∧ W'.Settled ∧ W.Leads W' := by
  have hnested : W.rel.Nested s t := fun f g hfg =>
    ⟨hs.nested (hW.nested f g hfg).1, ht.nested (hW.nested f g hfg).2⟩
  have hinside : ∀ p q, W.rel p q → s.Has p ∧ t.Has q := fun p q hpq =>
    ⟨hs.has (hW.inside p q hpq).1, ht.has (hW.inside p q hpq).2⟩
  refine ⟨⟨s, t, W.rel, W.unique, fun {p q} hpq => ?_, fun {p q} hpq k => ?_, .inr hnested⟩,
    rfl, rfl, rfl, ⟨hinside, hnested⟩, ⟨le_refl _, fun _ _ => .inl, hs.count, ht.count⟩⟩
  · rw [hs.cell p (hW.inside p q hpq).1, ht.cell q (hW.inside p q hpq).2]
    exact W.alike hpq
  · -- No place is beyond the end of its store.
    obtain ⟨hp, hq⟩ := hinside p q hpq
    unfold Store.Has at hp hq
    omega

/-! ## What was made on both sides -/

variable {ε α α' : Type} {R : World → α → α' → Prop}

/-- Where something is made on both sides, there is a world in which it has been made. -/
theorem Simulates.exists_created {f : Store → α × Store} {g : Store → α' × Store}
    (h : W.Simulates R (create f : StoreM ε α) (create g)) :
    ∃ W' : World, W'.left = (f W.left).2 ∧ W'.right = (g W.right).2 ∧ W.Extends W' ∧
      R W' (f W.left).1 (g W.right).1 := by
  rw [Simulates, run_create, run_create] at h
  generalize ho : (Outcome.value (f W.left).1 (f W.left).2 : Outcome ε α) = o at h
  generalize ho' : (Outcome.value (g W.right).1 (g W.right).2 : Outcome ε α') = o' at h
  cases h with
  | value hW hR =>
    injection ho with hvalue hstore
    injection ho' with hvalue' hstore'
    rw [hvalue, hvalue']
    exact ⟨_, hstore.symm, hstore'.symm, hW, hR⟩
  | error => cases ho
  | unfinished => cases ho

/-! ## Sessions -/

/-- The texts of a session have the same answers on both sides. -/
theorem exists_of_runAll {i j : Interpreter} (h : W.rel (.frame i.scope) (.frame j.scope)) {n : Nat}
    {texts : List String} {answers : List (Except RunError String)} {s : Store}
    (hrun : i.runAll n texts W.left = some (answers, s)) :
    ∃ W' : World, W'.left = s ∧ W.Extends W' := by
  induction texts generalizing W answers with
  | nil => exact ⟨W, congrArg Prod.snd (Option.some.inj hrun), .refl W⟩
  | cons text texts ih =>
    have hsim := simulates_run h n text
    rw [Interpreter.runAll] at hrun
    rw [Simulates] at hsim
    generalize (i.run n text).run W.left = o at hsim hrun
    generalize (j.run n text).run W.right = o' at hsim
    have hrest : ∀ {W₁ : World} {answer}, W.Extends W₁ →
        (i.runAll n texts W₁.left).map (Prod.map (answer :: ·) id) = some (answers, s) →
          ∃ W' : World, W'.left = s ∧ W.Extends W' := fun h₁ hmap => by
      obtain ⟨⟨rest, t⟩, hrest, heq⟩ := Option.map_eq_some_iff.1 hmap
      obtain rfl : t = s := congrArg Prod.snd heq
      obtain ⟨W', hleft, h'⟩ := ih (h₁.le _ _ h) hrest
      exact ⟨W', hleft, h₁.trans h'⟩
    cases hsim with
    | value h₁ _ => exact hrest h₁ hrun
    | error e h₁ => exact hrest h₁ hrun
    | unfinished => cases hrun

end World

/-- In a session, whatever can be reached from the global frame is in use, and frames are
    made inside ones that are there. -/
theorem Interpreter.sound_of_runAll {n : Nat} {texts : List String}
    {answers : List (Except RunError String)} {s : Store}
    (h : alone.runAll n texts aloneStore = some (answers, s)) :
    s.Sound (· = .frame alone.scope) := by
  obtain ⟨W, hleft, -, hnested, hinside, -, hscope⟩ := Host.exists_new .empty
  obtain ⟨W', rfl, hW⟩ := World.exists_of_runAll hscope (hleft ▸ h)
  exact (hW.settled ⟨hinside, hnested⟩).sound fun p hp => ⟨_, hp ▸ hW.le _ _ hscope⟩

end SmallScheme
