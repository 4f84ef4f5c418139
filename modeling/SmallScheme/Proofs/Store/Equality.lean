import SmallScheme.Proofs.Store.Cycle

/-!
# What structural equality decides

A value shows itself to those who go down from it and look at what stands at the end
of each way (`Store.leaf?`). This tells two values apart just if they have different
unfoldings, even where an unfolding is infinite because a pair is passed again and
again. The places of pairs do not show.

The comparison goes no further at a pair that it meets on both sides at once, so it may
come to an end on circular values. Whenever it has an answer, this is right
(`eq_true_iff_of_equalUpTo`). It has one if either of the two sides is acyclic
(`exists_equalUpTo_eq_some`): a way down that is taken on both sides at once is over
when one of them ends. So the comparison decides whether both sides have the same
unfolding, and on acyclic values it is an equivalence (`equality_exact`).
-/

namespace SmallScheme

/-- A way to go on from a pair. -/
inductive Side where
  /-- To the first component. -/
  | car
  /-- To the second component. -/
  | cdr
deriving DecidableEq, Repr

namespace Store

/-- What is found at the end of a way down from a value. Nothing is found where the way
    ends at a pair, or leads on where there is none. -/
def leaf? (s : Store) : Value → List Side → Option Value
  | .pair _, [] => none
  | .pair r, .car :: way => s.leaf? (s.pair r).car way
  | .pair r, .cdr :: way => s.leaf? (s.pair r).cdr way
  | v, [] => some v
  | _, _ :: _ => none

variable {s : Store} {v w : Value} {r q : PairRef} {n : Nat} {tree : Tree}

theorem leaf?_pair_eq_iff : s.leaf? (.pair r) = s.leaf? (.pair q) ↔
    s.leaf? (s.pair r).car = s.leaf? (s.pair q).car ∧
      s.leaf? (s.pair r).cdr = s.leaf? (s.pair q).cdr := by
  constructor
  · intro h
    exact ⟨funext fun way => congrFun h (.car :: way), funext fun way => congrFun h (.cdr :: way)⟩
  · rintro ⟨hcar, hcdr⟩
    funext way
    match way with
    | [] => rfl
    | .car :: way => exact congrFun hcar way
    | .cdr :: way => exact congrFun hcdr way

/-- A value that is not a pair looks like itself only. -/
theorem leaf?_eq_iff_of_ne_pair (h : ∀ r q, v = .pair r → w ≠ .pair q) :
    s.leaf? v = s.leaf? w ↔ v = w := by
  refine ⟨fun hlook => ?_, fun heq => by rw [heq]⟩
  have hhere := congrFun hlook []
  cases v with
  | pair r =>
    cases w with
    | pair q => exact absurd rfl (h r q rfl)
    | nil | integer | symbol | closure => cases hhere
  | nil | integer | symbol | closure =>
    cases w <;> cases hhere
    rfl

/-! ## Answers are right -/

theorem equalUpTo_of_ne_pair (h : ∀ r q, v = .pair r → w ≠ .pair q) :
    s.equalUpTo (n + 1) v w = some (v == w) := by
  cases v with
  | nil | integer | symbol | closure => rfl
  | pair r =>
    cases w with
    | nil | integer | symbol | closure => rfl
    | pair q => exact absurd rfl (h r q rfl)

/-- The answer, if there is one, tells whether the values look the same. -/
theorem eq_true_iff_of_equalUpTo {answer : Bool} (h : s.equalUpTo n v w = some answer) :
    answer = true ↔ s.leaf? v = s.leaf? w := by
  induction n generalizing v w answer with
  | zero => cases h
  | succ n ih =>
    by_cases hpairs : ∃ r q, v = .pair r ∧ w = .pair q
    · obtain ⟨r, q, rfl, rfl⟩ := hpairs
      rw [equalUpTo] at h
      split at h
      · rename_i hsame
        cases h
        exact iff_of_true rfl (by rw [hsame])
      · rw [leaf?_pair_eq_iff]
        cases hcar : s.equalUpTo n (s.pair r).car (s.pair q).car with
        | none =>
          rw [hcar] at h
          cases h
        | some same =>
          rw [← ih hcar]
          rw [hcar] at h
          cases same with
          | false =>
            cases h
            exact iff_of_false Bool.false_ne_true fun hboth => Bool.false_ne_true hboth.1
          | true => rw [ih h, eq_self, true_and]
    · have hne : ∀ r q, v = .pair r → w ≠ .pair q := fun r q hr hq => hpairs ⟨r, q, hr, hq⟩
      rw [equalUpTo_of_ne_pair hne] at h
      cases h
      rw [beq_iff_eq, leaf?_eq_iff_of_ne_pair hne]

/-! ## Where there is an answer -/

theorem equalUpTo_comm (s : Store) (n : Nat) (v w : Value) :
    s.equalUpTo n v w = s.equalUpTo n w v := by
  induction n generalizing v w with
  | zero => rfl
  | succ n ih =>
    by_cases hpairs : ∃ r q, v = .pair r ∧ w = .pair q
    · obtain ⟨r, q, rfl, rfl⟩ := hpairs
      rw [equalUpTo, equalUpTo]
      by_cases hsame : r = q
      · rw [if_pos hsame, if_pos hsame.symm]
      · rw [if_neg hsame, if_neg (Ne.symm hsame), ih (s.pair r).car, ih (s.pair r).cdr]
    · rw [equalUpTo_of_ne_pair fun r q hr hq => hpairs ⟨r, q, hr, hq⟩,
        equalUpTo_of_ne_pair fun q r hq hr => hpairs ⟨r, q, hr, hq⟩, BEq.comm]

theorem exists_equalUpTo_eq_some (h : s.Acyclic v ∨ s.Acyclic w) (hn : s.pairs.size + 1 < n) :
    ∃ answer, s.equalUpTo n v w = some answer ∧ (answer = true ↔ s.leaf? v = s.leaf? w) := by
  have hsome : (s.equalUpTo n v w).isSome := by
    obtain h | h := h
    · obtain ⟨tree, hunfold, hheight⟩ := exists_unfolds_of_acyclic h
      exact isSome_equalUpTo hunfold (Nat.lt_of_le_of_lt hheight hn) w
    · obtain ⟨tree, hunfold, hheight⟩ := exists_unfolds_of_acyclic h
      rw [equalUpTo_comm]
      exact isSome_equalUpTo hunfold (Nat.lt_of_le_of_lt hheight hn) v
  obtain ⟨answer, hanswer⟩ := Option.isSome_iff_exists.1 hsome
  exact ⟨answer, hanswer, eq_true_iff_of_equalUpTo hanswer⟩

theorem exists_equal?_eq_some (h : s.Acyclic v ∨ s.Acyclic w) :
    ∃ answer, s.equal? v w = some answer ∧ (answer = true ↔ s.leaf? v = s.leaf? w) :=
  exists_equalUpTo_eq_some h (Nat.lt_succ_of_le (Nat.le_mul_of_pos_left _ (Nat.succ_pos _)))

/-- With enough steps, more of them do not change the answer. -/
theorem equalUpTo_eq_equal? (h : s.Acyclic v ∨ s.Acyclic w) (hn : s.pairs.size + 1 < n) :
    s.equalUpTo n v w = s.equal? v w := by
  obtain ⟨answer, hanswer, hlook⟩ := exists_equalUpTo_eq_some h hn
  obtain ⟨answer', hanswer', hlook'⟩ := exists_equal?_eq_some h
  rw [hanswer, hanswer', Bool.eq_iff_iff.2 (hlook.trans hlook'.symm)]

theorem equal?_eq_true_iff (h : s.Acyclic v ∨ s.Acyclic w) :
    s.equal? v w = some true ↔ s.leaf? v = s.leaf? w := by
  obtain ⟨answer, hanswer, hlook⟩ := exists_equal?_eq_some h
  rw [hanswer, Option.some_inj, hlook]

/-- On acyclic values, the comparison is an equivalence. -/
theorem equivalence_equal? (s : Store) :
    Equivalence fun v w : {v : Value // s.Acyclic v} => s.equal? v w = some true where
  refl v := (equal?_eq_true_iff (.inl v.2)).2 rfl
  symm {v w} h := (equal?_eq_true_iff (.inl w.2)).2 ((equal?_eq_true_iff (.inl v.2)).1 h).symm
  trans {u v w} huv hvw := by
    rw [equal?_eq_true_iff (.inl u.2)] at huv ⊢
    rw [equal?_eq_true_iff (.inl v.2)] at hvw
    exact huv.trans hvw

/-! ## Unfoldings -/

/-- Values that unfold to the same tree look the same. -/
theorem Unfolds.leaf?_eq (h : s.Unfolds v tree) (h' : s.Unfolds w tree) :
    s.leaf? v = s.leaf? w := by
  induction h generalizing w with
  | nil | integer | symbol | closure =>
    cases h'
    rfl
  | pair _ _ ihcar ihcdr =>
    cases h' with
    | pair hcar hcdr => exact leaf?_pair_eq_iff.2 ⟨ihcar hcar, ihcdr hcdr⟩

/-- What looks like a value that unfolds to a tree unfolds to this tree, too. -/
theorem Unfolds.of_leaf?_eq (h : s.Unfolds v tree) (hw : s.leaf? v = s.leaf? w) :
    s.Unfolds w tree := by
  induction h generalizing w with
  | nil | integer | symbol | closure =>
    obtain rfl := (leaf?_eq_iff_of_ne_pair (by simp)).1 hw
    constructor
  | pair _ _ ihcar ihcdr =>
    cases w with
    | pair q =>
      obtain ⟨hcar, hcdr⟩ := leaf?_pair_eq_iff.1 hw
      exact .pair (ihcar hcar) (ihcdr hcdr)
    | nil | integer | symbol | closure => cases congrFun hw []

theorem leaf?_eq_iff_exists_unfolds (h : s.Acyclic v ∨ s.Acyclic w) :
    s.leaf? v = s.leaf? w ↔ ∃ tree, s.Unfolds v tree ∧ s.Unfolds w tree := by
  refine ⟨fun heq => ?_, fun ⟨_, hv, hw⟩ => hv.leaf?_eq hw⟩
  obtain h | h := h
  · obtain ⟨tree, hunfold, -⟩ := exists_unfolds_of_acyclic h
    exact ⟨tree, hunfold, hunfold.of_leaf?_eq heq⟩
  · obtain ⟨tree, hunfold, -⟩ := exists_unfolds_of_acyclic h
    exact ⟨tree, hunfold.of_leaf?_eq heq.symm, hunfold⟩

/-- If one of two values is acyclic, the comparison comes to an answer, however many
    steps more it is given. It is yes just if the same is found down every way from the
    values, that is if they unfold to the same tree, whatever pairs they share. On
    acyclic values, this is an equivalence. -/
theorem equality_exact (s : Store) :
    (∀ v w, s.Acyclic v ∨ s.Acyclic w → ∃ answer,
      s.equal? v w = some answer ∧
      (∀ n, s.pairs.size + 1 < n → s.equalUpTo n v w = some answer) ∧
      (answer = true ↔ s.leaf? v = s.leaf? w) ∧
      (answer = true ↔ ∃ tree, s.Unfolds v tree ∧ s.Unfolds w tree)) ∧
    Equivalence fun v w : {v : Value // s.Acyclic v} => s.equal? v w = some true := by
  refine ⟨fun v w h => ?_, equivalence_equal? s⟩
  obtain ⟨answer, hanswer, hlook⟩ := exists_equal?_eq_some h
  refine ⟨answer, hanswer, fun n hn => ?_, hlook, ?_⟩
  · rw [equalUpTo_eq_equal? h hn, hanswer]
  · rw [hlook, leaf?_eq_iff_exists_unfolds h]

/-- The lists `((1) 1)`, made with and without a pair that is in it twice, and a list
    of ones without an end. -/
def ones : Store :=
  ⟨#[⟨.integer .one, .nil⟩, ⟨.pair ⟨0⟩, .pair ⟨0⟩⟩, ⟨.integer .one, .nil⟩,
    ⟨.pair ⟨2⟩, .pair ⟨0⟩⟩, ⟨.integer .one, .pair ⟨4⟩⟩], #[], #[]⟩

theorem equality_exact_ones :
    ones.Acyclic (.pair ⟨1⟩) ∧ ones.equal? (.pair ⟨1⟩) (.pair ⟨3⟩) = some true ∧
      ones.equal? (.pair ⟨4⟩) (.pair ⟨0⟩) = some false ∧
      ¬∃ tree, ones.Unfolds (.pair ⟨4⟩) tree ∧ ones.Unfolds (.pair ⟨0⟩) tree := by
  have hunfold : ones.Unfolds (.pair ⟨0⟩) (.pair (.integer .one) .nil) :=
    .pair (.integer _) .nil
  have hshared := Unfolds.pair (r := ⟨1⟩) hunfold hunfold
  have hother : ones.Unfolds (.pair ⟨3⟩) _ :=
    .pair (r := ⟨3⟩) (.pair (r := ⟨2⟩) (.integer _) .nil) hunfold
  refine ⟨hshared.acyclic, ?_, ?_⟩
  · obtain ⟨answer, hanswer, -, -, htree⟩ :=
      (equality_exact ones).1 _ (.pair ⟨3⟩) (.inl hshared.acyclic)
    rw [hanswer, htree.2 ⟨_, hshared, hother⟩]
  · obtain ⟨answer, hanswer, -, -, htree⟩ :=
      (equality_exact ones).1 (.pair ⟨4⟩) _ (.inr hunfold.acyclic)
    have hfalse : ones.equal? (.pair ⟨4⟩) (.pair ⟨0⟩) = some false := by decide
    obtain rfl := Option.some.inj (hanswer.symm.trans hfalse)
    exact ⟨hfalse, fun h => Bool.false_ne_true (htree.2 h)⟩

end Store

end SmallScheme
