import SmallScheme.Proofs.Outcome
import SmallScheme.Proofs.Store.Reach
import SmallScheme.Proofs.Store.Without

/-!
# Computations that do not use a name

A store *avoids* a name if nothing that matters in it has to do with the name:
no symbol of that name is kept there and no closure has a parameter of that name
(`Store.Avoids`). What matters are the *live* places, those that the ones that
matter mention, and those still free. A frame may bind the name all the same.

A computation *hides* the name if it makes no difference to it whether the name is
bound: from a store that avoids the name and from the same store without it, it comes to
the same end, and its last stores again differ in the bindings of the name only
(`StoreM.Hides`). This is proved for each way of making a computation and for each
change of a store, and so carries over to whatever is made of them.
-/

namespace SmallScheme

open StoreM

/-- The name is neither a symbol nor a parameter in a cell. -/
def Cell.Omits (name : String) : Cell → Prop
  | .pair p => p.car ≠ .symbol name ∧ p.cdr ≠ .symbol name
  | .closure c => name ∉ c.params ∧ ∀ form ∈ c.body, form ≠ .symbol name
  | .frame f => ∀ entry ∈ f.bindings, entry.2 ≠ .symbol name

/-- The value is not the symbol `name`, and its place, if it has one, is live. -/
def Value.Avoids (name : String) (live : Place → Prop) (v : Value) : Prop :=
  v ≠ .symbol name ∧ ∀ p, v.place? = some p → live p

/-- The cell omits the name, and the places that it mentions are live. -/
def Cell.Avoids (name : String) (live : Place → Prop) (c : Cell) : Prop :=
  c.Omits name ∧ ∀ p, c.Mentions p → live p

/-- In a store, the name has nothing to do with what is live. -/
structure Store.Avoids (name : String) (live : Place → Prop) (s : Store) : Prop where
  /-- What is made next will be live. -/
  fresh : ∀ p, ¬s.Has p → live p
  /-- What is live omits the name, and mentions what is live. -/
  cell : ∀ p, live p → (s.cell p).Avoids name live

variable {name other : String} {live : Place → Prop} {s t : Store} {v w : Value}

/-! ## Values and cells -/

section Cells

variable {c : Closure} {f : Frame}

theorem Value.avoids_integer (n : Fixnum) : (Value.integer n).Avoids name live := ⟨nofun, nofun⟩

theorem Value.avoids_nil : Value.nil.Avoids name live := ⟨nofun, nofun⟩

theorem Value.avoids_symbol (h : other ≠ name) : (Value.symbol other).Avoids name live :=
  ⟨fun heq => h (Value.symbol.inj heq), nofun⟩

theorem Value.avoids_ofBool (h : (Value.symbol name).isBoolean = false) (b : Bool) :
    (Value.ofBool b).Avoids name live := by
  refine ⟨fun heq => ?_, nofun⟩
  rw [← heq] at h
  cases b <;> cases h

theorem Value.avoids_pair_iff {r : PairRef} :
    (Value.pair r).Avoids name live ↔ live (.pair r) := by simp [Avoids, place?]

theorem Value.avoids_closure_iff {c : ClosureRef} :
    (Value.closure c).Avoids name live ↔ live (.closure c) := by simp [Avoids, place?]

namespace Cell

theorem avoids_pair_iff : (Cell.pair ⟨v, w⟩).Avoids name live ↔
    v.Avoids name live ∧ w.Avoids name live := by
  constructor
  · rintro ⟨⟨hv, hw⟩, hlive⟩
    exact ⟨⟨hv, fun p hp => hlive p (.inl hp)⟩, hw, fun p hp => hlive p (.inr hp)⟩
  · rintro ⟨⟨hv, hvlive⟩, hw, hwlive⟩
    exact ⟨⟨hv, hw⟩, fun p hp => hp.elim (hvlive p) (hwlive p)⟩

theorem avoids_closure_iff : (Cell.closure c).Avoids name live ↔
    name ∉ c.params ∧ (∀ form ∈ c.body, form.Avoids name live) ∧ live (.frame c.scope) := by
  constructor
  · rintro ⟨⟨hparams, hbody⟩, hlive⟩
    exact ⟨hparams, fun form hform => ⟨hbody form hform, fun p hp =>
      hlive p (.inl ⟨form, hform, hp⟩)⟩, hlive _ (.inr rfl)⟩
  · rintro ⟨hparams, hbody, hscope⟩
    refine ⟨⟨hparams, fun form hform => (hbody form hform).1⟩, ?_⟩
    rintro p (⟨form, hform, hp⟩ | rfl)
    · exact (hbody form hform).2 p hp
    · exact hscope

theorem avoids_frame_iff : (Cell.frame f).Avoids name live ↔
    (∀ entry ∈ f.bindings, entry.2.Avoids name live) ∧
      ∀ g, f.outer = some g → live (.frame g) := by
  constructor
  · rintro ⟨hbindings, hlive⟩
    exact ⟨fun entry hentry => ⟨hbindings entry hentry, fun p hp =>
      hlive p (.inl ⟨entry, hentry, hp⟩)⟩, fun g hg => hlive _ (.inr ⟨g, hg, rfl⟩)⟩
  · rintro ⟨hbindings, houter⟩
    refine ⟨fun entry hentry => (hbindings entry hentry).1, ?_⟩
    rintro p (⟨entry, hentry, hp⟩ | ⟨g, hg, rfl⟩)
    · exact (hbindings entry hentry).2 p hp
    · exact houter g hg

end Cell

end Cells

namespace Store.Avoids

/-! ## What is read -/

section Read

variable (h : s.Avoids name live)

include h

theorem pair {r : PairRef} (hr : live (.pair r)) :
    (s.pair r).car.Avoids name live ∧ (s.pair r).cdr.Avoids name live :=
  Cell.avoids_pair_iff.1 (h.cell _ hr)

theorem reaches (hv : v.Avoids name live) (hw : s.Reaches v w) : w.Avoids name live := by
  induction hw with
  | refl => exact hv
  | tail _ hlink ih =>
    cases hlink with
    | car r => exact (h.pair (Value.avoids_pair_iff.1 ih)).1
    | cdr r => exact (h.pair (Value.avoids_pair_iff.1 ih)).2

theorem elements? (hv : v.Avoids name live) {items : List Value} {tail : Value}
    (he : s.elements? v = some (items, tail)) : ∀ item ∈ items, item.Avoids name live :=
  Store.forall_mem_of_elements? (P := Value.Avoids name live)
    (fun _ hr => h.pair (Value.avoids_pair_iff.1 hr)) hv he

theorem scopesUpTo {f : FrameRef} (hf : live (.frame f)) (n : Nat) :
    ∀ g ∈ s.scopesUpTo n f, live (.frame g) := by
  induction n generalizing f with
  | zero => exact List.forall_mem_nil _
  | succ n ih =>
    rw [Store.scopesUpTo]
    refine List.forall_mem_cons.2 ⟨hf, ?_⟩
    cases houter : (s.frame f).outer with
    | none => exact List.forall_mem_nil _
    | some outer => exact ih ((Cell.avoids_frame_iff.1 (h.cell _ hf)).2 outer houter)

theorem lookup? {f : FrameRef} (hf : live (.frame f)) (hv : s.lookup? f other = some v) :
    v.Avoids name live := by
  obtain ⟨g, hg, hlookup⟩ := List.exists_of_findSome?_eq_some hv
  obtain ⟨_, _, heq, _⟩ := List.lookup_eq_some_iff.1 hlookup
  refine (Cell.avoids_frame_iff.1 (h.cell _ (h.scopesUpTo hf _ g hg))).1 (other, v) ?_
  rw [heq]
  exact List.mem_append_right _ List.mem_cons_self

end Read

/-! ## What is changed -/

section Changes

variable {p : Place} {c : Cell}

theorem adds (h : s.Avoids name live) (ht : s.Adds p c t) (hc : c.Avoids name live) :
    t.Avoids name live where
  fresh q hq := h.fresh q fun hs => hq (Nat.lt_of_lt_of_le hs (by rw [ht.count]; omega))
  cell q hq := by
    by_cases hqp : q = p
    · rwa [hqp, ht.cell_self]
    · rw [ht.cell_of_ne _ hqp]
      exact h.cell q hq

theorem live_of_adds (h : s.Avoids name live) (ht : s.Adds p c t) : live p :=
  h.fresh p fun hp => Nat.ne_of_lt hp ht.next

theorem replaces (h : s.Avoids name live) (ht : s.Replaces p c t) (hc : c.Avoids name live) :
    t.Avoids name live where
  fresh q hq := h.fresh q fun hs => hq (by rwa [Has, ht.count])
  cell q hq := by
    by_cases hqp : q = p
    · rwa [hqp, ht.cell_self]
    · rw [ht.cell_of_ne _ hqp]
      exact h.cell q hq

theorem define {f : FrameRef} (h : s.Avoids name live) (hf : live (.frame f)) (other : String)
    (hv : v.Avoids name live) : (s.define f other v).Avoids name live := by
  by_cases hhas : s.Has (.frame f)
  · obtain ⟨hbindings, houter⟩ := Cell.avoids_frame_iff.1 (h.cell _ hf)
    refine h.replaces (replaces_define hhas other v) (Cell.avoids_frame_iff.2 ⟨?_, houter⟩)
    intro entry hentry
    rcases Bindings.mem_insert hentry with rfl | hentry
    · exact hv
    · exact hbindings entry hentry
  · rwa [define_of_not_has hhas]

end Changes

end Store.Avoids

/-! ## Computations -/

variable {ε α β γ : Type} {P : α → Prop} {Q : β → Prop}

/-- The ends of a computation from a store and from the same store without a name: the
    same, but for the bindings of the name. -/
inductive Outcome.Hidden (name : String) (live : Place → Prop) (P : α → Prop) :
    Outcome ε α → Outcome ε α → Prop
  | value {a : α} {s : Store} (hs : s.Avoids name live) (ha : P a) :
      Hidden name live P (.value a s) (.value a (s.without name))
  | error {s : Store} (e : ε) (hs : s.Avoids name live) :
      Hidden name live P (.error e s) (.error e (s.without name))
  | unfinished : Hidden name live P .unfinished .unfinished

namespace Outcome

variable {o : Outcome ε α}

theorem Hidden.exists_value {a : α} {t : Store} (h : o.Hidden name live P (.value a t)) :
    ∃ s, o = .value a s ∧ t = s.without name := by
  generalize ho : Outcome.value a t = o' at h
  cases h with
  | value =>
    obtain ⟨rfl, rfl⟩ := Outcome.value.inj ho
    exact ⟨_, rfl, rfl⟩
  | error | unfinished => cases ho

theorem Hidden.exists_error {e : ε} {t : Store} (h : o.Hidden name live P (.error e t)) :
    ∃ s, o = .error e s ∧ t = s.without name := by
  generalize ho : Outcome.error e t = o' at h
  cases h with
  | error =>
    obtain ⟨rfl, rfl⟩ := Outcome.error.inj ho
    exact ⟨_, rfl, rfl⟩
  | value | unfinished => cases ho

theorem Hidden.eq_unfinished (h : o.Hidden name live P .unfinished) : o = .unfinished := by
  cases h
  rfl

end Outcome

namespace StoreM

/-- The computation does not use the name, and its result, if there is one, is as `P`
    says. -/
def Hides (name : String) (live : Place → Prop) (P : α → Prop) (c : StoreM ε α) : Prop :=
  ∀ s, s.Avoids name live → (c.run s).Hidden name live P (c.run (s.without name))

theorem hides_pure {a : α} (h : P a) : (pure a : StoreM ε α).Hides name live P :=
  fun _ hs => .value hs h

theorem hides_fail (e : ε) : (fail e : StoreM ε α).Hides name live P := fun _ hs => .error e hs

theorem hides_read {f : Store → α}
    (h : ∀ s, s.Avoids name live → f (s.without name) = f s ∧ P (f s)) :
    (read f : StoreM ε α).Hides name live P := fun s hs => by
  rw [run_read, run_read, (h s hs).1]
  exact .value hs (h s hs).2

theorem hides_find {f : Store → Option α}
    (h : ∀ s, s.Avoids name live → f (s.without name) = f s ∧ ∀ a, f s = some a → P a) :
    (find f : StoreM ε α).Hides name live P := fun s hs => by
  rw [run_find, run_find, (h s hs).1]
  cases ha : f s with
  | some a => exact .value hs ((h s hs).2 a ha)
  | none => exact .unfinished

theorem hides_modify {f : Store → Store} (h : ∀ s, s.Avoids name live →
      (f s).Avoids name live ∧ f (s.without name) = (f s).without name) :
    (modify f : StoreM ε Unit).Hides name live fun _ => True := fun s hs => by
  rw [run_modify, run_modify, (h s hs).2]
  exact .value (h s hs).1 trivial

theorem hides_create {f : Store → α × Store} (h : ∀ s, s.Avoids name live →
      ((f s).2.Avoids name live ∧ P (f s).1) ∧
        f (s.without name) = ((f s).1, (f s).2.without name)) :
    (create f : StoreM ε α).Hides name live P := fun s hs => by
  rw [run_create, run_create, (h s hs).2]
  exact .value (h s hs).1.1 (h s hs).1.2

theorem hides_bind {c : StoreM ε α} {f : α → StoreM ε β} (h : c.Hides name live P)
    (hf : ∀ a, P a → (f a).Hides name live Q) : (c >>= f).Hides name live Q := fun s hs => by
  have hc := h s hs
  rw [run_bind, run_bind]
  generalize c.run s = o at hc
  generalize c.run (s.without name) = o' at hc
  cases hc with
  | value hs ha => exact hf _ ha _ hs
  | error e hs => exact .error e hs
  | unfinished => exact .unfinished

theorem hides_map {c : StoreM ε α} {f : α → β} (h : c.Hides name live P)
    (hf : ∀ a, P a → Q (f a)) : (f <$> c).Hides name live Q := by
  rw [map_eq_pure_bind]
  exact hides_bind h fun a ha => hides_pure (hf a ha)

theorem hides_mapM {S : γ → Prop} {f : γ → StoreM ε α} (hf : ∀ x, S x → (f x).Hides name live P)
    {xs : List γ} (h : ∀ x ∈ xs, S x) :
    (xs.mapM f).Hides name live fun as => ∀ a ∈ as, P a := by
  induction xs with
  | nil => exact hides_pure fun _ ha => nomatch ha
  | cons x xs ih =>
    obtain ⟨hx, hrest⟩ := List.forall_mem_cons.1 h
    rw [List.mapM_cons]
    refine hides_bind (hf x hx) fun a ha => ?_
    exact hides_bind (ih hrest) fun as has => hides_pure (List.forall_mem_cons.2 ⟨ha, has⟩)

theorem hides_ofExcept {r : Except ε α} (h : ∀ a, r = .ok a → P a) :
    (ofExcept r).Hides name live P := by
  cases r with
  | ok a => exact hides_pure (h a rfl)
  | error e => exact hides_fail e

/-! ## Changes of the store -/

variable {r : PairRef} {f : FrameRef}

theorem hides_cons (hv : v.Avoids name live) (hw : w.Avoids name live) :
    (create fun s => s.cons v w : StoreM ε Value).Hides name live (Value.Avoids name live) :=
  hides_create fun s hs =>
    have hadds := Store.adds_cons (s := s) v w
    ⟨⟨hs.adds hadds (Cell.avoids_pair_iff.2 ⟨hv, hw⟩),
      Value.avoids_pair_iff.2 (hs.live_of_adds hadds)⟩, rfl⟩

theorem hides_newClosure {c : Closure} (h : (Cell.closure c).Avoids name live) :
    (create fun s => s.newClosure c : StoreM ε ClosureRef).Hides name live
      fun c => live (.closure c) :=
  hides_create fun s hs =>
    have hadds := Store.adds_newClosure (s := s) c
    ⟨⟨hs.adds hadds h, hs.live_of_adds hadds⟩, rfl⟩

theorem hides_newFrame {outer : Option FrameRef} (h : ∀ g, outer = some g → live (.frame g)) :
    (create fun s => s.newFrame outer : StoreM ε FrameRef).Hides name live
      fun f => live (.frame f) :=
  hides_create fun s hs =>
    have hadds := Store.adds_newFrame (s := s) outer
    ⟨⟨hs.adds hadds (Cell.avoids_frame_iff.2 ⟨List.forall_mem_nil _, h⟩),
      hs.live_of_adds hadds⟩, Store.newFrame_without outer⟩

theorem hides_setCar (hr : live (.pair r)) (hv : v.Avoids name live) :
    (modify fun s => s.setCar r v : StoreM ε Unit).Hides name live fun _ => True :=
  hides_modify fun s hs => by
    refine ⟨?_, rfl⟩
    by_cases hhas : s.Has (.pair r)
    · exact hs.replaces (Store.replaces_setCar hhas v) (Cell.avoids_pair_iff.2 ⟨hv, (hs.pair hr).2⟩)
    · rwa [Store.setCar_of_not_has hhas]

theorem hides_setCdr (hr : live (.pair r)) (hv : v.Avoids name live) :
    (modify fun s => s.setCdr r v : StoreM ε Unit).Hides name live fun _ => True :=
  hides_modify fun s hs => by
    refine ⟨?_, rfl⟩
    by_cases hhas : s.Has (.pair r)
    · exact hs.replaces (Store.replaces_setCdr hhas v) (Cell.avoids_pair_iff.2 ⟨(hs.pair hr).1, hv⟩)
    · rwa [Store.setCdr_of_not_has hhas]

theorem hides_define (hf : live (.frame f)) (h : other ≠ name) (hv : v.Avoids name live) :
    (modify fun s => s.define f other v : StoreM ε Unit).Hides name live fun _ => True :=
  hides_modify fun _ hs => ⟨hs.define hf other hv, (Store.without_define h).symm⟩

theorem hides_list {vs : List Value} (h : ∀ v ∈ vs, v.Avoids name live) :
    (create fun s => s.list vs : StoreM ε Value).Hides name live (Value.Avoids name live) := by
  induction vs with
  | nil => exact hides_pure Value.avoids_nil
  | cons v vs ih =>
    obtain ⟨hv, hrest⟩ := List.forall_mem_cons.1 h
    exact hides_bind (c := create fun s => s.list vs) (f := fun tail => create fun s => s.cons v tail)
      (ih hrest) fun tail htail => hides_cons hv htail

/-- Names bound one after another. -/
theorem hides_bindAll (hf : live (.frame f)) {entries : Bindings}
    (h : ∀ entry ∈ entries, entry.1 ≠ name ∧ entry.2.Avoids name live) :
    (modify fun s => entries.foldl (fun s (name, v) => s.define f name v) s :
      StoreM ε Unit).Hides name live fun _ => True := by
  induction entries with
  | nil => exact hides_pure trivial
  | cons entry entries ih =>
    obtain ⟨other, v⟩ := entry
    obtain ⟨⟨hne, hv⟩, hrest⟩ := List.forall_mem_cons.1 h
    exact hides_bind (c := modify fun s => s.define f other v)
      (f := fun _ => modify fun s => entries.foldl (fun s (name, v) => s.define f name v) s)
      (hides_define hf hne hv) fun _ _ => ih hrest

end StoreM

end SmallScheme
