import SmallScheme.Proofs.World.Growth

/-!
# Ends that are alike

Two computations that begin in the same store can do the same and yet not end in the
same store: what they make may be made in another order, and one of them may make
more. So they are compared up to the numbers of what is new. They end *alike*
(`Outcome.Alike`) if they end with the same error, or with values that stand for each
other, and if the stores match (`Renaming.Matches`): what was there before stands for
itself, so it keeps the same on both sides, up to what is new.

Such a comparison starts from a world in which, on each side, something may have been
made since (`World.exists_since`). Where computations simulate each other in it, they
end alike (`World.Since.alike_of_ends`). It takes a sound store to start with. Those of a
session are sound for any expressions that are read next (`Interpreter.sound_load`), and
evaluation keeps them so (`Store.Sound.evaluate`).
-/

namespace SmallScheme

open StoreM

/-- The places that a form is given: those of its operands, and the frame. -/
def Eval.rootsOf (operands : List Value) (scope : FrameRef) (p : Place) : Prop :=
  (∃ v ∈ operands, v.place? = some p) ∨ p = .frame scope

/-- Two stores that have come of `s` differ in the numbers of what has been made since, and
    in nothing else that has to do with what could be reached from `roots`; what could not
    is as it was. -/
structure Renaming.Matches (ρ : Renaming) (roots : Place → Prop) (s t u : Store) : Prop where
  /-- No place stands for two others. -/
  unique : ∀ {p q p' q' : Place}, ρ p q → ρ p' q' → (p = p' ↔ q = q')
  /-- What was there in `s` stands for nothing but itself. -/
  old : ∀ p q, ρ p q → s.Has p ∨ s.Has q → p = q
  /-- What could be reached does so. -/
  kept : ∀ p, s.Reachable roots p → ρ p p
  /-- The same is kept at places that stand for each other. -/
  alike : ∀ p q, ρ p q → ρ.OnCell (t.cell p) (u.cell q)
  /-- Nothing else that was there has changed. -/
  untouched : ∀ p, s.Has p → ¬s.Reachable roots p → t.cell p = s.cell p ∧ u.cell p = s.cell p

/-- Two computations that began in `s` end alike: with the same error, or with values that
    stand for each other, and in stores that match. -/
inductive Outcome.Alike (roots : Place → Prop) (s : Store) :
    Outcome EvalError Value → Outcome EvalError Value → Prop
  | value {ρ : Renaming} {v w : Value} {t u : Store} (h : ρ.Matches roots s t u)
      (hv : ρ.OnValue v w) : Alike roots s (.value v t) (.value w u)
  | error {ρ : Renaming} {t u : Store} (e : EvalError) (h : ρ.Matches roots s t u) :
      Alike roots s (.error e t) (.error e u)
  | unfinished : Alike roots s .unfinished .unfinished

/-! ## From a store on -/

namespace World

variable {W W' : World} {roots : Place → Prop} {s t u : Store}

/-- What could be reached from `roots` in `s` stands for itself, and nothing else stands for
    anything; on each side, something may have been made since. -/
structure Since (W : World) (roots : Place → Prop) (s : Store) : Prop where
  left : s.Grows W.left
  right : s.Grows W.right
  rel_iff : ∀ p q, W.rel p q ↔ s.Reachable roots p ∧ p = q
  has : ∀ p, s.Reachable roots p → s.Has p

theorem exists_since (hs : s.Sound roots) (ht : s.Grows t) (hu : s.Grows u) :
    ∃ W : World, W.left = t ∧ W.right = u ∧ W.Since roots s := by
  obtain ⟨W, rfl, hright, hrel, hsettled⟩ := exists_settled hs
  obtain ⟨W', rfl, rfl, hrel', -, -⟩ := exists_grown hsettled ht (hright.symm ▸ hu)
  exact ⟨W', rfl, rfl, ht, hu, fun p q => by rw [hrel', hrel], fun p hp => (hs p hp).1⟩

namespace Since

variable (h : W.Since roots s)

include h

theorem rel_self {p : Place} (hp : roots p) : W.rel p p := (h.rel_iff p p).2 ⟨.root hp, rfl⟩

theorem onValues_self {xs : List Value} (hxs : ∀ x ∈ xs, ∀ p, x.place? = some p → roots p) :
    List.Forall₂ W.rel.OnValue xs xs :=
  List.forall₂_same.2 fun x hx => Renaming.onValue_self fun p hp => h.rel_self (hxs x hx p hp)

theorem matches_of_extends (hW : W.Extends W') : W'.rel.Matches roots s W'.left W'.right where
  unique := W'.unique
  old _ _ hpq hhas := hW.leads.eq_of_has (fun p q hpq => ((h.rel_iff p q).1 hpq).2) hpq
    (hhas.imp h.left.has h.right.has)
  kept p hp := hW.le _ _ ((h.rel_iff p p).2 ⟨hp, rfl⟩)
  alike _ _ := W'.alike
  untouched p hp hnot := by
    refine ⟨?_, ?_⟩
    · rw [hW.left_cell p (h.left.has hp) fun q hpq => hnot ((h.rel_iff p q).1 hpq).1,
        h.left.cell p hp]
    · rw [hW.right_cell p (h.right.has hp), h.right.cell p hp]
      intro q hqp
      obtain ⟨hq, rfl⟩ := (h.rel_iff q p).1 hqp
      exact hnot hq

theorem alike_of_ends {o o' : Outcome EvalError Value}
    (hends : W.Ends (fun W => W.rel.OnValue) o o') : o.Alike roots s o' := by
  cases hends with
  | value hW hv => exact .value (h.matches_of_extends hW) hv
  | error e hW => exact .error e (h.matches_of_extends hW)
  | unfinished => exact .unfinished

end Since

end World

/-! ## Stores that are sound -/

variable {s : Store}

/-- In a session, all that is read next is sound. -/
theorem Interpreter.sound_load {n : Nat} {texts : List String}
    {answers : List (Except RunError String)}
    (h : alone.runAll n texts aloneStore = some (answers, s)) {d : Datum} {xs : List Value}
    {tail : Value}
    (hxs : (s.load d).2.elements? (s.load d).1 = some (xs, tail)) :
    (s.load d).2.Sound (Eval.rootsOf xs alone.scope) := by
  obtain ⟨W, rfl, -, hrel, hsettled⟩ := World.exists_settled (sound_of_runAll h)
  obtain ⟨W', hleft, -, hW, hv⟩ := (World.simulates_load (ε := Empty) (W := W) d).exists_created
  rw [← hleft] at hxs ⊢
  refine (hW.settled hsettled).sound ?_
  rintro p (⟨x, hx, hp⟩ | rfl)
  · obtain ⟨ys, hys, -⟩ := Renaming.exists_of_left_eq_some (World.onElements hv) hxs
    obtain ⟨y, hxy⟩ := Renaming.exists_of_mem hys hx
    exact hxy.exists_rel hp
  · exact ⟨_, hW.le _ _ ((hrel _ _).2 ⟨.root rfl, rfl⟩)⟩

/-- Evaluation keeps a store sound. -/
theorem Store.Sound.evaluate {roots : Place → Prop} (hs : s.Sound roots) (n : Nat) {v : Value}
    {scope : FrameRef} (hroots : ∀ p, Eval.roots v scope p → roots p) :
    ((Eval.evaluate n v scope).run s).Leaves fun t => t.Sound roots := by
  obtain ⟨W, rfl, hright, hrel, hsettled⟩ := World.exists_settled hs
  have hself : ∀ {p}, roots p → W.rel p p := fun hp => (hrel _ _).2 ⟨.root hp, rfl⟩
  have hv : W.rel.OnValue v v := Renaming.onValue_self fun p hp => hself (hroots p (.inl hp))
  have hsim := World.respects_evaluate n W hv (hself (hroots _ (.inr rfl)))
  rw [World.Simulates] at hsim
  generalize (Eval.evaluate n v scope).run W.left = o at hsim
  generalize (Eval.evaluate n v scope).run W.right = o' at hsim
  cases hsim with
  | value hW hv => exact (hW.settled hsettled).sound fun p hp => ⟨p, hW.le _ _ (hself hp)⟩
  | error e hW => exact (hW.settled hsettled).sound fun p hp => ⟨p, hW.le _ _ (hself hp)⟩
  | unfinished => trivial

end SmallScheme
