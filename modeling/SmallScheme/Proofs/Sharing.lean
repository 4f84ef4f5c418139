import SmallScheme.Interpreter
import SmallScheme.Proofs.Session
import SmallScheme.Proofs.World.Evaluate

/-!
# Several interpreters in one store

A host keeps interpreters in one store and serves requests to them, in
whatever order they come (`Host.serve`). No interpreter notices the others: the
texts that are meant for it have the answers that they would have in a store
of its own (`answered_serve`).

For each interpreter, there is a world with the store of its own on the left and
the store of the host on the right (`Host.Mirrors`). No place on the right
stands for something in two of these worlds. So when one interpreter answers a text,
its world becomes another one, and those of the others are as good as before: what
they are about has not changed.
-/

namespace SmallScheme

open StoreM

/-- A request to a host: the number of an interpreter, which is made if it is not
    there yet, and a text to answer, if one is given. -/
abbrev Request := Nat × Option String

/-- Interpreters in one store. -/
structure Host where
  /-- The interpreters that have been made, by number. -/
  interpreters : Nat → Option Interpreter
  /-- Where they live. -/
  store : Store

namespace Host

/-- The interpreter with the number `k`, made if it is not there yet. -/
def opened (h : Host) (k : Nat) : Interpreter × Host :=
  match h.interpreters k with
  | some i => (i, h)
  | none =>
    let (i, s) := Interpreter.new h.store
    (i, ⟨Function.update h.interpreters k (some i), s⟩)

/-- The answers to requests, each with the number of the interpreter; nothing if one
    of them has no answer within `n` levels. -/
def serve (n : Nat) : List Request → Host → Option (List (Nat × Except RunError String))
  | [], _ => some []
  | (k, none) :: requests, h => serve n requests (h.opened k).2
  | (k, some text) :: requests, h =>
    match ((h.opened k).1.run n text).run (h.opened k).2.store with
    | .value output s =>
      (serve n requests ⟨(h.opened k).2.interpreters, s⟩).map ((k, .ok output) :: ·)
    | .error e s =>
      (serve n requests ⟨(h.opened k).2.interpreters, s⟩).map ((k, .error e) :: ·)
    | .unfinished => none

end Host

/-- The texts for the interpreter with the number `k`. -/
def textsFor (k : Nat) (requests : List Request) : List String :=
  requests.filterMap fun (j, text) => if j = k then text else none

/-- The answers of the interpreter with the number `k`. -/
def answersOf (k : Nat) (answers : List (Nat × Except RunError String)) :
    List (Except RunError String) :=
  answers.filterMap fun (j, answer) => if j = k then some answer else none

namespace Interpreter

/-- An interpreter in a store of its own. -/
def alone : Interpreter := (new .empty).1

/-- The store of an interpreter on its own, before it is given any text. -/
def aloneStore : Store := (new .empty).2

/-- The answers of an interpreter on its own to the texts, from the store `s` on. -/
def answersFrom (n : Nat) (texts : List String) (s : Store) :
    Option (List (Except RunError String)) :=
  (alone.runAll n texts s).map Prod.fst

theorem answersFrom_cons (n : Nat) (text : String) (texts : List String) (s : Store) :
    answersFrom n (text :: texts) s = match (alone.run n text).run s with
      | .value output s => (answersFrom n texts s).map (.ok output :: ·)
      | .error e s => (answersFrom n texts s).map (.error e :: ·)
      | .unfinished => none := by
  rw [answersFrom, runAll]
  cases (alone.run n text).run s with
  | value output s => simp only [answersFrom, Option.map_map]; rfl
  | error e s => simp only [answersFrom, Option.map_map]; rfl
  | unfinished => rfl

end Interpreter

namespace World

/-- A text has the same answer on both sides. -/
theorem simulates_run {W : World} {i j : Interpreter} (h : W.rel (.frame i.scope) (.frame j.scope))
    (n : Nat) (text : String) : W.Simulates (fun _ => Eq) (i.run n text) (j.run n text) := by
  rw [Interpreter.run, Interpreter.run]
  cases readExpression text with
  | error e => exact simulates_fail e
  | ok datum =>
    refine simulates_mapError RunError.evaluation
      (simulates_bind ?_ fun W' _ _ _ hv => simulates_render hv)
    exact simulates_bind (simulates_load datum) fun W' _ _ h' hv =>
      respects_evaluate n W' hv (h'.le _ _ h)

/-- All places that stand for each other are in use. -/
def Inside (W : World) : Prop := ∀ p q, W.rel p q → W.left.Has p ∧ W.right.Has q

theorem Extends.inside {W W' : World} (h : W.Extends W') (hW : W.Inside) : W'.Inside := by
  intro p q hpq
  obtain hpq | ⟨⟨-, hp⟩, -, hq⟩ := h.new p q hpq
  · exact ⟨h.left_has (hW p q hpq).1, h.right_has (hW p q hpq).2⟩
  · exact ⟨hp, hq⟩

/-- The right-hand store may be another one in which the same is kept at the places
    that the world is about. -/
theorem exists_moved {W : World} (hnested : W.rel.Nested W.left W.right) (hinside : W.Inside)
    {t : Store} (ht : ∀ p q, W.rel p q → t.Has q ∧ t.cell q = W.right.cell q) :
    ∃ W' : World, W'.left = W.left ∧ W'.right = t ∧ W'.rel = W.rel ∧
      W'.rel.Nested W'.left W'.right := by
  have hnested' : W.rel.Nested W.left t := by
    intro f g hfg
    obtain ⟨hhas, hcell⟩ := ht _ _ hfg
    refine ⟨(hnested f g hfg).1, hhas, fun o ho => (hnested f g hfg).2.2 o ?_⟩
    rwa [Cell.frame.inj hcell] at ho
  refine ⟨⟨W.left, t, W.rel, W.unique, fun h => ?_, fun h k => ?_, .inr hnested'⟩, rfl, rfl, rfl,
    hnested'⟩
  · rw [(ht _ _ h).2]
    exact W.alike h
  · -- No place is beyond the end of its store.
    have hp := (hinside _ _ h).1
    have hq := (ht _ _ h).1
    unfold Store.Has at hp hq
    omega

end World

namespace Host

/-- The interpreters of a host do as they would on their own, with the stores `alone`
    by number; `rels` says which places stand for which. -/
structure Mirrors (h : Host) (alone : Nat → Store) (rels : Nat → Renaming) : Prop where
  /-- Each interpreter has its world. -/
  world : ∀ k, ∃ W : World, W.left = alone k ∧ W.right = h.store ∧ W.rel = rels k ∧
    W.rel.Nested W.left W.right
  /-- It is about places in use. -/
  inside : ∀ k p q, rels k p q → (alone k).Has p ∧ h.store.Has q
  /-- No two worlds are about the same place of the host. -/
  apart : ∀ j k p p' q, rels j p q → rels k p' q → j = k
  /-- The global frames stand for each other. -/
  scope : ∀ k i, h.interpreters k = some i →
    rels k (.frame Interpreter.alone.scope) (.frame i.scope)
  /-- What is not made yet has seen no text. -/
  closed : ∀ k, h.interpreters k = none → alone k = Interpreter.aloneStore

variable {h : Host} {alone : Nat → Store} {rels : Nat → Renaming} {k : Nat}

/-- One interpreter comes to another world; this is well for the others if places that
    its world was not about are as they were, and those it is about now were not in
    use. -/
theorem Mirrors.change (hm : Mirrors h alone rels) {W' : World}
    (interpreters : Nat → Option Interpreter) (hnested : W'.rel.Nested W'.left W'.right)
    (hinside : W'.Inside)
    (hcell : ∀ q, h.store.Has q → (∀ p, ¬rels k p q) →
      W'.right.Has q ∧ W'.right.cell q = h.store.cell q)
    (hnew : ∀ p q, W'.rel p q → (∃ p', rels k p' q) ∨ ¬h.store.Has q)
    (hscope : ∃ i, interpreters k = some i ∧
      W'.rel (.frame Interpreter.alone.scope) (.frame i.scope))
    (hothers : ∀ j, j ≠ k → interpreters j = h.interpreters j) :
    Mirrors ⟨interpreters, W'.right⟩ (Function.update alone k W'.left)
      (Function.update rels k W'.rel) where
  world j := by
    by_cases hj : j = k
    · subst hj
      rw [Function.update_self, Function.update_self]
      exact ⟨W', rfl, rfl, rfl, hnested⟩
    · rw [Function.update_of_ne hj, Function.update_of_ne hj]
      obtain ⟨W, hleft, hright, hrel, hW⟩ := hm.world j
      have hWinside : W.Inside := fun p q hpq => by
        rw [hleft, hright]
        exact hm.inside j p q (hrel ▸ hpq)
      obtain ⟨W₁, h₁⟩ := World.exists_moved hW hWinside (t := W'.right) fun p q hpq => by
        rw [hrel] at hpq
        rw [hright]
        exact hcell q (hm.inside j p q hpq).2 fun p' hp' => hj (hm.apart _ _ _ _ _ hpq hp')
      exact ⟨W₁, h₁.1.trans hleft, h₁.2.1, h₁.2.2.1.trans hrel, h₁.2.2.2⟩
  inside j p q hpq := by
    by_cases hj : j = k
    · subst hj
      rw [Function.update_self] at hpq ⊢
      exact hinside p q hpq
    · rw [Function.update_of_ne hj] at hpq ⊢
      obtain ⟨hp, hq⟩ := hm.inside j p q hpq
      exact ⟨hp, (hcell q hq fun p' hp' => hj (hm.apart _ _ _ _ _ hpq hp')).1⟩
  apart i j p p' q hi hj := by
    have hother : ∀ {j p p'}, j ≠ k → W'.rel p q → ¬rels j p' q := fun {j p p'} hj hp hp' =>
      (hnew p q hp).elim (fun ⟨_, hk⟩ => hj (hm.apart _ _ _ _ _ hp' hk))
        fun hfree => hfree (hm.inside j p' q hp').2
    by_cases hik : i = k
    · by_cases hjk : j = k
      · exact hik.trans hjk.symm
      · rw [hik, Function.update_self] at hi
        rw [Function.update_of_ne hjk] at hj
        exact absurd hj (hother hjk hi)
    · rw [Function.update_of_ne hik] at hi
      by_cases hjk : j = k
      · rw [hjk, Function.update_self] at hj
        exact absurd hi (hother hik hj)
      · rw [Function.update_of_ne hjk] at hj
        exact hm.apart i j p p' q hi hj
  scope j i hi := by
    by_cases hj : j = k
    · subst hj
      obtain ⟨i', hi', hscope⟩ := hscope
      rw [show interpreters j = some i from hi] at hi'
      cases hi'
      rwa [Function.update_self]
    · rw [Function.update_of_ne hj]
      exact hm.scope j i ((hothers j hj).symm.trans hi)
  closed j hj := by
    have hne : j ≠ k := by
      rintro rfl
      obtain ⟨i, hi, -⟩ := hscope
      cases hi.symm.trans hj
    rw [Function.update_of_ne hne]
    exact hm.closed j ((hothers j hne).symm.trans hj)

/-- What happens to one interpreter's world makes a change that the others do not
    notice. -/
theorem Mirrors.extend (hm : Mirrors h alone rels) {W W' : World} (hleft : W.left = alone k)
    (hright : W.right = h.store) (hrel : W.rel = rels k) (hnested : W.rel.Nested W.left W.right)
    (hW : W.Extends W') {i : Interpreter} (hi : h.interpreters k = some i) :
    Mirrors ⟨h.interpreters, W'.right⟩ (Function.update alone k W'.left)
      (Function.update rels k W'.rel) := by
  have hinside : W.Inside := fun p q hpq => by
    rw [hleft, hright]
    exact hm.inside k p q (hrel ▸ hpq)
  refine hm.change _ (hW.nested hnested) (hW.inside hinside) (fun q hq hnone => ?_)
    (fun p q hpq => ?_) ⟨i, hi, hW.le _ _ (hrel ▸ hm.scope k i hi)⟩ fun _ _ => rfl
  · rw [← hright] at hq ⊢
    exact ⟨hW.right_has hq, hW.right_cell q hq fun p => hrel ▸ hnone p⟩
  · rw [← hright, ← hrel]
    exact (hW.new p q hpq).imp (fun hpq => ⟨p, hpq⟩) fun hnew => hnew.2.1

/-- The world in which an interpreter has just been made, in a store of its own and
    in the store of a host. -/
theorem exists_new (s : Store) : ∃ W : World, W.left = Interpreter.aloneStore ∧
    W.right = (Interpreter.new s).2 ∧ W.rel.Nested W.left W.right ∧ W.Inside ∧
    (∀ p q, W.rel p q → ¬s.Has q) ∧
    W.rel (.frame Interpreter.alone.scope) (.frame (Interpreter.new s).1.scope) := by
  let W : World := ⟨.empty, s, fun _ _ => False, nofun, nofun, nofun, .inr nofun⟩
  have hleft := Store.adds_newFrame (s := .empty) none
  have hright := Store.adds_newFrame (s := s) none
  have hcell : W.rel.OnCell (.frame ⟨none, []⟩) (.frame ⟨none, []⟩) := .frame ⟨.none, .nil⟩
  have hW := World.extends_add (W := W) hleft hright hcell
  refine ⟨W.add hleft hright hcell, rfl, rfl, hW.nested nofun, hW.inside nofun, fun p q hpq => ?_,
    .inr ⟨rfl, rfl⟩⟩
  exact ((hW.new p q hpq).resolve_left id).2.1

/-- After a request, the interpreter that it is for is there. -/
theorem Mirrors.opened (hm : Mirrors h alone rels) (k : Nat) :
    ∃ rels', Mirrors (h.opened k).2 alone rels' ∧
      (h.opened k).2.interpreters k = some (h.opened k).1 := by
  unfold Host.opened
  cases hk : h.interpreters k with
  | some i => exact ⟨rels, hm, hk⟩
  | none =>
    obtain ⟨W, hleft, hright, hnested, hinside, hnew, hscope⟩ := exists_new h.store
    have hadds := Store.adds_newFrame (s := h.store) none
    have hchange := hm.change (k := k)
      (Function.update h.interpreters k (some (Interpreter.new h.store).1)) hnested hinside
      (fun q hq _ => ?_) (fun p q hpq => .inr (hnew p q hpq)) ⟨_, Function.update_self .., hscope⟩
      fun j hj => Function.update_of_ne hj ..
    · rw [hleft, hright, ← hm.closed k hk, Function.update_eq_self] at hchange
      exact ⟨_, hchange, Function.update_self ..⟩
    · rw [hright]
      exact ⟨Nat.lt_of_lt_of_le hq (World.count_le_of_adds hadds _),
        hadds.cell_of_ne _ fun heq => World.not_has_of_adds hadds (heq ▸ hq)⟩

/-- What the answers of a host are to those of interpreters on their own that start
    from the stores `alone`. -/
def Answered (n : Nat) (requests : List Request) (alone : Nat → Store) :
    Option (List (Nat × Except RunError String)) → Prop
  | some answers => ∀ k,
      Interpreter.answersFrom n (textsFor k requests) (alone k) = some (answersOf k answers)
  | none => ∃ k, Interpreter.answersFrom n (textsFor k requests) (alone k) = none

/-- One more answer, of one interpreter. -/
theorem Answered.cons {n : Nat} {text : String} {requests : List Request} {s : Store}
    {answer : Except RunError String} {o : Option (List (Nat × Except RunError String))}
    (hrun : ∀ texts, Interpreter.answersFrom n (text :: texts) (alone k) =
      (Interpreter.answersFrom n texts s).map (answer :: ·))
    (h : Answered n requests (Function.update alone k s) o) :
    Answered n ((k, some text) :: requests) alone (o.map ((k, answer) :: ·)) := by
  have hself : textsFor k ((k, some text) :: requests) = text :: textsFor k requests := by
    simp [textsFor]
  have hother : ∀ {j}, j ≠ k → textsFor j ((k, some text) :: requests) = textsFor j requests :=
    fun hj => by simp [textsFor, Ne.symm hj]
  cases o with
  | none =>
    obtain ⟨j, hj⟩ := h
    refine ⟨j, ?_⟩
    by_cases hjk : j = k
    · subst hjk
      rw [Function.update_self] at hj
      rw [hself, hrun, hj, Option.map_none]
    · rwa [hother hjk, ← Function.update_of_ne hjk s alone]
  | some answers =>
    intro j
    have hj := h j
    by_cases hjk : j = k
    · subst hjk
      rw [Function.update_self] at hj
      rw [hself, hrun, hj, Option.map_some]
      simp [answersOf]
    · rw [Function.update_of_ne hjk] at hj
      rw [hother hjk, hj]
      simp [answersOf, Ne.symm hjk]

/-- The answers of a host are those of its interpreters on their own. -/
theorem answered_serve (n : Nat) (requests : List Request) (hm : Mirrors h alone rels) :
    Answered n requests alone (h.serve n requests) := by
  induction requests generalizing h alone rels with
  | nil => exact fun _ => rfl
  | cons request requests ih =>
    obtain ⟨k, text⟩ := request
    obtain ⟨rels', hm', hk⟩ := hm.opened k
    cases text with
    | none =>
      have htexts : ∀ j, textsFor j ((k, none) :: requests) = textsFor j requests := fun j => by
        simp [textsFor]
      have hrest := ih hm'
      rw [serve]
      revert hrest
      generalize serve n requests (h.opened k).2 = o
      cases o <;> simp only [Answered, htexts, imp_self]
    | some text =>
      obtain ⟨W, hleft, hright, hrel, hnested⟩ := hm'.world k
      have hsim := World.simulates_run (W := W) (hrel ▸ hm'.scope k _ hk) n text
      rw [World.Simulates, hleft, hright] at hsim
      rw [serve]
      have hcons := fun texts => Interpreter.answersFrom_cons n text texts (alone k)
      generalize (Interpreter.alone.run n text).run (alone k) = o at hsim hcons
      generalize ((h.opened k).1.run n text).run (h.opened k).2.store = o' at hsim
      cases hsim with
      | @value W' output _ hW heq =>
        subst heq
        exact .cons hcons (ih (hm'.extend hleft hright hrel hnested hW hk))
      | @error W' e hW => exact .cons hcons (ih (hm'.extend hleft hright hrel hnested hW hk))
      | unfinished =>
        refine ⟨k, ?_⟩
        rw [show textsFor k ((k, some text) :: requests) = text :: textsFor k requests by
          simp [textsFor], hcons]

/-- Before the first request, nothing stands for anything. -/
theorem mirrors_start (s : Store) :
    Mirrors ⟨fun _ => none, s⟩ (fun _ => Interpreter.aloneStore) (fun _ _ _ => False) where
  world _ := ⟨⟨_, s, fun _ _ => False, nofun, nofun, nofun, .inr nofun⟩, rfl, rfl, rfl, nofun⟩
  inside _ _ _ h := h.elim
  apart _ _ _ _ _ h := h.elim
  scope _ _ h := nomatch h
  closed _ _ := rfl

end Host

end SmallScheme
