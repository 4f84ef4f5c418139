import SmallScheme.Proofs.Sharing

/-!
# Evaluation stays within reach

The places that matter to an evaluation are those that can be reached from its
expression and its scope: through the components of pairs, the bindings of frames
and the frames around them, and the bodies and scopes of closures. Nothing else
that is there is changed, and nothing else makes a difference, neither to the end
that the evaluation comes to nor to what can be reached then. In particular,
interpreters that share a store do not notice each other
(`evaluation_confined`).

For evaluation this is the simulation in a world in which the places within reach
stand for themselves (`World.exists_within`).
-/

namespace SmallScheme

/-- The places that an evaluation is given: that of the expression, and the frame. -/
def Eval.roots (v : Value) (scope : FrameRef) (p : Place) : Prop :=
  v.place? = some p ∨ p = .frame scope

/-- Two stores do not differ at any place that can be reached from `roots`, and the same
    places are free in them. -/
structure Store.Agrees (s t : Store) (roots : Place → Prop) : Prop where
  /-- As much has been made in both. -/
  count : ∀ k, t.count k = s.count k
  /-- The same is kept within reach. -/
  cell : ∀ p, s.Reachable roots p → t.cell p = s.cell p

/-- Two computations end alike, with the same result or error, and in stores that agree
    on what can be reached from `roots` and the result. -/
inductive Outcome.Agrees {ε : Type} (roots : Place → Prop) :
    Outcome ε Value → Outcome ε Value → Prop
  | value {v : Value} {s t : Store} (h : s.Agrees t fun p => roots p ∨ v.place? = some p) :
      Agrees roots (.value v s) (.value v t)
  | error {e : ε} {s t : Store} (h : s.Agrees t roots) : Agrees roots (.error e s) (.error e t)
  | unfinished : Agrees roots .unfinished .unfinished

namespace World

variable {W : World} {s t : Store} {roots : Place → Prop}

/-- What can be reached on the left from places that stand for something stands for
    something. -/
theorem exists_rel_of_reachable (hroots : ∀ p, roots p → ∃ q, W.rel p q) {p : Place}
    (h : W.left.Reachable roots p) : ∃ q, W.rel p q := by
  induction h with
  | root hp => exact hroots _ hp
  | step _ hq ih =>
    obtain ⟨q, hpq⟩ := ih
    exact (W.alike hpq).exists_rel hq

/-- In an exact world, the stores agree on what can be reached from places that stand for
    themselves. -/
theorem agrees_of_exact (h : W.rel.Exact W.left W.right) (hroots : ∀ p, roots p → ∃ q, W.rel p q) :
    W.left.Agrees W.right roots where
  count k := (h.count k).symm
  cell p hp := by
    obtain ⟨q, hpq⟩ := exists_rel_of_reachable hroots hp
    obtain rfl := h.eq _ _ hpq
    exact ((W.alike hpq).eq h.eq).symm

/-- Two stores that agree on what can be reached from `roots` make a world, in which the
    places within reach stand for themselves. -/
theorem exists_within (h : s.Agrees t roots) : ∃ W : World, W.left = s ∧ W.right = t ∧
    (∀ p q, W.rel p q ↔ s.Reachable roots p ∧ p = q) ∧ W.rel.Exact W.left W.right := by
  have hexact : Renaming.Exact (fun p q => s.Reachable roots p ∧ p = q) s t :=
    ⟨fun _ _ hpq => hpq.2, fun k => (h.count k).symm⟩
  refine ⟨⟨s, t, fun p q => s.Reachable roots p ∧ p = q, ?_, ?_, ?_, .inl hexact⟩, rfl, rfl,
    fun _ _ => Iff.rfl, hexact⟩
  · rintro p _ p' _ ⟨-, rfl⟩ ⟨-, rfl⟩
    exact Iff.rfl
  · rintro p _ ⟨hp, rfl⟩
    rw [h.cell p hp]
    exact Renaming.onCell_self fun q hq => ⟨hp.step hq, rfl⟩
  · rintro p _ ⟨-, rfl⟩ k
    rw [h.count]

end World

open Eval

variable {n : Nat} {v : Value} {scope : FrameRef} {s t : Store}

/-- Evaluation in stores that agree on what is within reach: in both, it comes to the
    same end, and what was out of reach is as it was. -/
theorem evaluate_within (h : s.Agrees t (roots v scope)) :
    ((evaluate n v scope).run s).Agrees (s.Reachable (roots v scope)) ((evaluate n v scope).run t) ∧
      ((evaluate n v scope).run s).Leaves fun s' =>
        ∀ p, s.Has p → ¬s.Reachable (roots v scope) p → s'.Has p ∧ s'.cell p = s.cell p := by
  obtain ⟨W, rfl, rfl, hrel, hexact⟩ := World.exists_within h
  have hself : ∀ p, W.left.Reachable (roots v scope) p → W.rel p p := fun p hp =>
    (hrel p p).2 ⟨hp, rfl⟩
  have hv : W.rel.OnValue v v := Renaming.onValue_self fun p hp => hself p (.root (.inl hp))
  have hsim := World.respects_evaluate n W hv (hself (.frame scope) (.root (.inr rfl)))
  have houtside : ∀ {W' : World}, W.Extends W' → ∀ p, W.left.Has p →
      ¬W.left.Reachable (roots v scope) p → W'.left.Has p ∧ W'.left.cell p = W.left.cell p :=
    fun hW p hp hnot => ⟨hW.left_has hp, hW.left_cell p hp fun q hpq => hnot ((hrel p q).1 hpq).1⟩
  rw [World.Simulates] at hsim
  generalize (evaluate n v scope).run W.left = o at hsim
  generalize (evaluate n v scope).run W.right = o' at hsim
  cases hsim with
  | @value W' a b hW hab =>
    obtain rfl := hab.eq (hW.exact hexact).eq
    refine ⟨.value (World.agrees_of_exact (hW.exact hexact) fun p hp => ?_), houtside hW⟩
    exact hp.elim (fun hp => ⟨p, hW.le _ _ (hself p hp)⟩) hab.exists_rel
  | @error W' e hW =>
    exact ⟨.error (World.agrees_of_exact (hW.exact hexact) fun p hp =>
      ⟨p, hW.le _ _ (hself p hp)⟩), houtside hW⟩
  | unfinished => exact ⟨.unfinished, trivial⟩

theorem Store.Agrees.refl (s : Store) (roots : Place → Prop) : s.Agrees s roots :=
  ⟨fun _ => rfl, fun _ _ => rfl⟩

/-- Evaluation leaves all as it was that it can not reach from its expression and its
    scope. Where two stores agree on what it can reach, it comes to the same end in both,
    and they agree on what can be reached then, whatever else is in them. And
    interpreters in one store answer as they would on their own, in whatever order the
    texts come. -/
theorem evaluation_confined :
    (∀ n v scope s, ((evaluate n v scope).run s).Leaves fun s' =>
      ∀ p, s.Has p → ¬s.Reachable (roots v scope) p → s'.Has p ∧ s'.cell p = s.cell p) ∧
    (∀ n v scope s t, s.Agrees t (roots v scope) → ((evaluate n v scope).run s).Agrees
      (s.Reachable (roots v scope)) ((evaluate n v scope).run t)) ∧
    ∀ n requests s, Host.Answered n requests (fun _ => Interpreter.aloneStore)
      (Host.serve n requests ⟨fun _ => none, s⟩) :=
  ⟨fun _ _ _ s => (evaluate_within (.refl s _)).2, fun _ _ _ _ _ h => (evaluate_within h).1,
    fun n requests s => Host.answered_serve n requests (Host.mirrors_start s)⟩

/-- A store with the expression `(set-car! x 5)`, the list that `x` is bound to, and
    the pair `other`, out of reach. -/
def sampleStore (other : Pair) : Store where
  pairs := #[⟨.integer .one, .nil⟩, other, ⟨.symbol "set-car!", .pair ⟨3⟩⟩,
    ⟨.symbol "x", .pair ⟨4⟩⟩, ⟨.integer ⟨5, by decide⟩, .nil⟩]
  closures := #[]
  frames := #[⟨none, [("x", .pair ⟨0⟩)]⟩]

theorem mem_of_reachable_sampleStore {other : Pair} {p : Place}
    (h : (sampleStore other).Reachable (roots (.pair ⟨2⟩) ⟨0⟩) p) :
    p ∈ [Place.frame ⟨0⟩, .pair ⟨0⟩, .pair ⟨2⟩, .pair ⟨3⟩, .pair ⟨4⟩] := by
  induction h with
  | root hp =>
    obtain hp | rfl := hp
    · cases hp
      decide
    · decide
  | step _ hq ih =>
    simp only [List.mem_cons, List.not_mem_nil, or_false] at ih
    rcases ih with rfl | rfl | rfl | rfl | rfl
    · obtain ⟨entry, hentry, hq⟩ | ⟨g, hg, rfl⟩ := hq
      · obtain rfl := List.mem_singleton.1 hentry
        cases hq
        decide
      · cases hg
    all_goals
      obtain hq | hq := hq <;> cases hq
      try decide

/-- Stores that differ in a pair out of reach agree on the rest: in both, the list is
    changed and the pair is not. -/
theorem evaluation_confined_out_of_reach :
    ∃ s' t', (sampleStore ⟨.nil, .nil⟩).Agrees (sampleStore ⟨.pair ⟨0⟩, .nil⟩)
        (roots (.pair ⟨2⟩) ⟨0⟩) ∧
      (evaluate 2 (.pair ⟨2⟩) ⟨0⟩).run (sampleStore ⟨.nil, .nil⟩) = .value .nil s' ∧
      (evaluate 2 (.pair ⟨2⟩) ⟨0⟩).run (sampleStore ⟨.pair ⟨0⟩, .nil⟩) = .value .nil t' ∧
      (Outcome.value Value.nil s' : Outcome EvalError Value).Agrees
        ((sampleStore ⟨.nil, .nil⟩).Reachable (roots (.pair ⟨2⟩) ⟨0⟩)) (.value .nil t') ∧
      (sampleStore ⟨.nil, .nil⟩).Has (.pair ⟨1⟩) ∧
      ¬(sampleStore ⟨.nil, .nil⟩).Reachable (roots (.pair ⟨2⟩) ⟨0⟩) (.pair ⟨1⟩) ∧
      s'.cell (.pair ⟨1⟩) = .pair ⟨.nil, .nil⟩ ∧
      s'.cell (.pair ⟨0⟩) = .pair ⟨.integer ⟨5, by decide⟩, .nil⟩ := by
  have hagrees : (sampleStore ⟨.nil, .nil⟩).Agrees (sampleStore ⟨.pair ⟨0⟩, .nil⟩)
      (roots (.pair ⟨2⟩) ⟨0⟩) := by
    refine ⟨fun k => by cases k <;> rfl, fun p hp => ?_⟩
    have hmem := mem_of_reachable_sampleStore hp
    simp only [List.mem_cons, List.not_mem_nil, or_false] at hmem
    rcases hmem with rfl | rfl | rfl | rfl | rfl <;> rfl
  have hhas : (sampleStore ⟨.nil, .nil⟩).Has (.pair ⟨1⟩) := by decide
  have hout : ¬(sampleStore ⟨.nil, .nil⟩).Reachable (roots (.pair ⟨2⟩) ⟨0⟩) (.pair ⟨1⟩) := fun h =>
    absurd (mem_of_reachable_sampleStore h) (by decide)
  obtain ⟨hkept, hsame, -⟩ := evaluation_confined
  have hcell := hkept 2 (.pair ⟨2⟩) ⟨0⟩ (sampleStore ⟨.nil, .nil⟩)
  exact ⟨_, _, hagrees, rfl, rfl, hsame 2 _ _ _ _ hagrees, hhas, hout, (hcell _ hhas hout).2, rfl⟩

end SmallScheme
