import SmallScheme.Proofs.Store.Pursuit
import SmallScheme.Proofs.World
import SmallScheme.Store.Scope

/-!
# What is read on both sides

In a world, whatever is looked up from places that stand for each other is the
same on both sides: as values, up to the renaming, and as texts and truths,
altogether.

Where the search is bounded by the size of the store, the bounds may differ. For
chains and for printing this does not matter, because the bounds are no
bounds (`SmallScheme.Proofs.Store.Depth`). For scopes it takes one of the two sorts of
worlds: in an exact one, the bounds are the same; in a nested one, they are
enough.
-/

namespace SmallScheme.World

open Renaming

variable {W : World}

/-! ## Cells -/

theorem onPair {r q : PairRef} (h : W.rel (.pair r) (.pair q)) :
    W.rel.OnPair (W.left.pair r) (W.right.pair q) := by
  cases W.alike h with
  | pair h => exact h

theorem onClosure {c d : ClosureRef} (h : W.rel (.closure c) (.closure d)) :
    W.rel.OnClosure (W.left.closure c) (W.right.closure d) := by
  cases W.alike h with
  | closure h => exact h

theorem onFrame {f g : FrameRef} (h : W.rel (.frame f) (.frame g)) :
    W.rel.OnFrame (W.left.frame f) (W.right.frame g) := by
  cases W.alike h with
  | frame h => exact h

/-! ## Chains -/

variable {v w : Value}

/-- How a walk along two chains ends. -/
inductive OnWalk (W : World) : Except Value Value → Except Value Value → Prop
  | ok {v w : Value} : W.rel.OnValue v w → OnWalk W (.ok v) (.ok w)
  | error {v w : Value} : W.rel.OnValue v w → OnWalk W (.error v) (.error w)

theorem onWalk (h : W.rel.OnValue v w) (k : Nat) :
    W.OnWalk (W.left.walk k v) (W.right.walk k w) := by
  induction k generalizing v w with
  | zero => exact .ok h
  | succ k ih =>
    cases h with
    | pair h => exact ih (onPair h).cdr
    | nil => exact .error .nil
    | integer n => exact .error (.integer n)
    | symbol name => exact .error (.symbol name)
    | closure h => exact .error (.closure h)

/-- The elements and the tail of a chain are the same. -/
def OnElements (W : World) (x y : List Value × Value) : Prop :=
  List.Forall₂ W.rel.OnValue x.1 y.1 ∧ W.rel.OnValue x.2 y.2

theorem onElementsUpTo (h : W.rel.OnValue v w) (n : Nat) :
    Option.Rel W.OnElements (W.left.elementsUpTo n v) (W.right.elementsUpTo n w) := by
  induction n generalizing v w with
  | zero =>
    cases h with
    | pair => exact .none
    | nil => exact .some ⟨.nil, .nil⟩
    | integer n => exact .some ⟨.nil, .integer n⟩
    | symbol name => exact .some ⟨.nil, .symbol name⟩
    | closure h => exact .some ⟨.nil, .closure h⟩
  | succ n ih =>
    cases h with
    | @pair r q h =>
      rw [Store.elementsUpTo, Store.elementsUpTo]
      have hrest := ih (onPair h).cdr
      revert hrest
      generalize W.left.elementsUpTo n (W.left.pair r).cdr = o
      generalize W.right.elementsUpTo n (W.right.pair q).cdr = o'
      intro hrest
      cases hrest with
      | none => exact .none
      | some hrest => exact .some ⟨.cons (onPair h).car hrest.1, hrest.2⟩
    | nil => exact .some ⟨.nil, .nil⟩
    | integer n => exact .some ⟨.nil, .integer n⟩
    | symbol name => exact .some ⟨.nil, .symbol name⟩
    | closure h => exact .some ⟨.nil, .closure h⟩

/-- What is found within some number of steps or other is the same if it is so for
    every number. -/
theorem optionRel_of_forall {α β : Type} {R : α → β → Prop} {f : Nat → Option α}
    {g : Nat → Option β} {o : Option α} {o' : Option β} (ho : ∀ a, o = some a ↔ ∃ n, f n = some a)
    (ho' : ∀ b, o' = some b ↔ ∃ n, g n = some b) (h : ∀ n, Option.Rel R (f n) (g n)) :
    Option.Rel R o o' := by
  cases o with
  | none =>
    cases o' with
    | none => exact .none
    | some b =>
      obtain ⟨n, hn⟩ := (ho' b).1 rfl
      have hrel := h n
      rw [hn] at hrel
      cases hf : f n with
      | none => rw [hf] at hrel; cases hrel
      | some a => exact absurd ((ho a).2 ⟨n, hf⟩) nofun
  | some a =>
    obtain ⟨n, hn⟩ := (ho a).1 rfl
    have hrel := h n
    rw [hn] at hrel
    cases hg : g n with
    | none => rw [hg] at hrel; cases hrel
    | some b =>
      rw [hg] at hrel
      rw [(ho' b).2 ⟨n, hg⟩]
      exact hrel

theorem onElements (h : W.rel.OnValue v w) :
    Option.Rel W.OnElements (W.left.elements? v) (W.right.elements? w) :=
  optionRel_of_forall (fun _ => Store.elements?_eq_some_iff) (fun _ => Store.elements?_eq_some_iff)
    (onElementsUpTo h)

theorem isList_eq (h : W.rel.OnValue v w) : W.left.isList v = W.right.isList w := by
  rw [Bool.eq_iff_iff, Store.isList_iff, Store.isList_iff]
  have helements := onElements h
  revert helements
  generalize W.left.elements? v = o
  generalize W.right.elements? w = o'
  intro helements
  cases helements with
  | none => simp
  | @some x y hxy =>
    obtain ⟨items, tail⟩ := x
    obtain ⟨items', tail'⟩ := y
    have hnil : tail = .nil ↔ tail' = .nil := hxy.2.eq_nil_iff
    simp [hnil]

/-! ## Texts -/

theorem writePair_eq {r q : PairRef} (h : W.rel (.pair r) (.pair q)) (n : Nat) (out : String) :
    W.left.writePair n r out = W.right.writePair n q out := by
  induction n generalizing r q out with
  | zero => rfl
  | succ n ih =>
    have helement : ∀ {v w} out, W.rel.OnValue v w →
        Store.writeElement (W.left.writePair n) v out =
          Store.writeElement (W.right.writePair n) w out := fun out h => by
      cases h with
      | pair h => rw [Store.writeElement, Store.writeElement, ih h]
      | nil | integer | symbol | closure => rfl
    have hrest : ∀ {v w} out, W.rel.OnValue v w →
        W.left.writeRest n v out = W.right.writeRest n w out := fun out h => by
      cases h with
      | pair h => rw [Store.writeRest_pair, Store.writeRest_pair, ih h]
      | nil | integer | symbol | closure => cases n <;> rfl
    obtain ⟨hcar, hcdr⟩ := onPair h
    rw [Store.writePair, Store.writePair, helement out hcar]
    simp only [hcar.eq_nil_iff, hrest _ hcdr]

theorem render_eq (h : W.rel.OnValue v w) : W.left.render? v = W.right.render? w := by
  cases h with
  | nil | integer | symbol | closure => rfl
  | @pair r q h =>
    have hwrite : W.left.writePair (W.left.pairs.size + 1) r "(" =
        W.right.writePair (W.right.pairs.size + 1) q "(" := by
      refine Option.ext fun text => ?_
      rw [Store.writePair_eq_some_iff, Store.writePair_eq_some_iff]
      exact exists_congr fun n => by rw [writePair_eq h]
    rw [Store.render?, Store.render?, hwrite]

/-! ## Scopes -/

variable {f g : FrameRef}

/-- The frames of two scopes stand for each other. -/
def OnScopes (W : World) : List FrameRef → List FrameRef → Prop :=
  List.Forall₂ fun f g => W.rel (.frame f) (.frame g)

theorem onScopesUpTo (h : W.rel (.frame f) (.frame g)) (n : Nat) :
    W.OnScopes (W.left.scopesUpTo n f) (W.right.scopesUpTo n g) := by
  induction n generalizing f g with
  | zero => exact .nil
  | succ n ih =>
    refine .cons h ?_
    have houter := (onFrame h).outer
    revert houter
    generalize (W.left.frame f).outer = o
    generalize (W.right.frame g).outer = o'
    intro houter
    cases houter with
    | none => exact .nil
    | some h => exact ih h

/-- Where links lead to frames with smaller numbers, a number of steps above that
    of the frame makes no difference. -/
theorem scopesUpTo_eq {s : Store} {P : FrameRef → Prop}
    (hP : ∀ f g, P f → (s.frame f).outer = some g → P g ∧ g.index < f.index) {m n : Nat}
    (h : P f) (hm : f.index < m) (hn : f.index < n) : s.scopesUpTo m f = s.scopesUpTo n f := by
  induction m generalizing f n with
  | zero => cases hm
  | succ m ih =>
    obtain ⟨n, rfl⟩ := Nat.exists_eq_succ_of_ne_zero (Nat.ne_of_gt (Nat.zero_lt_of_lt hn))
    rw [Store.scopesUpTo, Store.scopesUpTo]
    cases houter : (s.frame f).outer with
    | none => rfl
    | some g =>
      obtain ⟨hg, hlt⟩ := hP f g h houter
      exact congrArg _ (ih hg (by omega) (by omega))

theorem onScopes (h : W.rel (.frame f) (.frame g)) :
    W.OnScopes (W.left.scopes f) (W.right.scopes g) := by
  rcases W.exact_or_nested with hexact | hnested
  · have heq : f = g := Place.frame.inj (hexact.eq _ _ h)
    rw [Store.scopes, Store.scopes, ← heq]
    exact onScopesUpTo (heq ▸ h) _
  · have hleft : W.left.scopes f = W.left.scopesUpTo (f.index + g.index + 1) f := by
      refine scopesUpTo_eq (P := fun f => ∃ g, W.rel (.frame f) (.frame g)) ?_ ⟨g, h⟩
        (Nat.lt_succ_self _) (by omega)
      exact fun f o ⟨g, h⟩ ho =>
        ⟨exists_of_left_eq_some (onFrame h).outer ho, (hnested _ _ h).1.2 _ ho⟩
    have hright : W.right.scopes g = W.right.scopesUpTo (f.index + g.index + 1) g := by
      refine scopesUpTo_eq (P := fun g => ∃ f, W.rel (.frame f) (.frame g)) ?_ ⟨f, h⟩
        (Nat.lt_succ_self _) (by omega)
      exact fun g o ⟨f, h⟩ ho =>
        ⟨exists_of_right_eq_some (onFrame h).outer ho, (hnested _ _ h).2.2 _ ho⟩
    rw [hleft, hright]
    exact onScopesUpTo h _

theorem onLookup (h : W.rel (.frame f) (.frame g)) (name : String) :
    Option.Rel W.rel.OnValue (W.left.lookup? f name) (W.right.lookup? g name) := by
  have hscopes := onScopes h
  rw [Store.lookup?, Store.lookup?]
  generalize W.left.scopes f = fs at hscopes
  generalize W.right.scopes g = gs at hscopes
  induction hscopes with
  | nil => exact .none
  | @cons f g fs gs hfg _ ih =>
    rw [List.findSome?_cons, List.findSome?_cons]
    have hlookup := lookup_onEntries (onFrame hfg).bindings name
    generalize (W.left.frame f).bindings.lookup name = o at hlookup
    generalize (W.right.frame g).bindings.lookup name = o' at hlookup
    cases hlookup with
    | none => exact ih
    | some hv => exact .some hv

theorem bindsLocally_eq (h : W.rel (.frame f) (.frame g)) (name : String) :
    W.left.bindsLocally f name = W.right.bindsLocally g name := by
  have hlookup := lookup_onEntries (onFrame h).bindings name
  rw [Store.bindsLocally, Store.bindsLocally]
  generalize (W.left.frame f).bindings.lookup name = o at hlookup
  generalize (W.right.frame g).bindings.lookup name = o' at hlookup
  cases hlookup <;> rfl

end SmallScheme.World
