import SmallScheme.Proofs.Store.Update

/-!
# Places and what is kept there

Pairs, closures and frames under one name: a *place* is where one of them is
kept, and a *cell* is what is kept there. A cell mentions places: those of the
values in it, the scope of a closure, and the frame around a frame. What can be
reached from some places is what cells mention, from one to the next
(`Store.Reachable`).

Every change of a store is one of two: it puts another cell at a place where
there is one (`Store.Replaces`), or one at the next free place
(`Store.Adds`).
-/

namespace SmallScheme

/-- What lives in a store. -/
inductive Kind where
  /-- A pair. -/
  | pair
  /-- A closure. -/
  | closure
  /-- A scope frame. -/
  | frame
deriving DecidableEq, Repr

/-- A place in the store. -/
inductive Place where
  /-- That of a pair. -/
  | pair (ref : PairRef)
  /-- That of a closure. -/
  | closure (ref : ClosureRef)
  /-- That of a frame. -/
  | frame (ref : FrameRef)
deriving DecidableEq, Repr

namespace Place

/-- What lives there. -/
def kind : Place → Kind
  | pair _ => .pair
  | closure _ => .closure
  | frame _ => .frame

/-- Its number among those of its kind. -/
def index : Place → Nat
  | pair r => r.index
  | closure c => c.index
  | frame f => f.index

/-- Kind and number make a place. -/
theorem eq_of_index_eq {p q : Place} (hkind : p.kind = q.kind) (hindex : p.index = q.index) :
    p = q := by
  cases p with
  | pair r =>
    cases q with
    | pair r' => exact congrArg (fun n => pair ⟨n⟩) hindex
    | closure | frame => cases hkind
  | closure c =>
    cases q with
    | closure c' => exact congrArg (fun n => closure ⟨n⟩) hindex
    | pair | frame => cases hkind
  | frame f =>
    cases q with
    | frame f' => exact congrArg (fun n => frame ⟨n⟩) hindex
    | pair | closure => cases hkind

end Place

/-- What is kept at a place. -/
inductive Cell where
  /-- A pair. -/
  | pair (p : Pair)
  /-- A closure. -/
  | closure (c : Closure)
  /-- A frame. -/
  | frame (f : Frame)
deriving DecidableEq, Repr

/-- The place that a value names, if it names one. -/
def Value.place? : Value → Option Place
  | nil | integer _ | symbol _ => none
  | pair r => some (.pair r)
  | closure c => some (.closure c)

namespace Cell

/-- The place `p` is named in a cell. -/
def Mentions (p : Place) : Cell → Prop
  | pair c => c.car.place? = some p ∨ c.cdr.place? = some p
  | closure c => (∃ v ∈ c.body, v.place? = some p) ∨ p = .frame c.scope
  | frame f => (∃ entry ∈ f.bindings, entry.2.place? = some p) ∨
      ∃ g, f.outer = some g ∧ p = .frame g

/-- The frame around a frame. -/
def outer : Cell → Option FrameRef
  | pair _ | closure _ => none
  | frame f => f.outer

end Cell

namespace Store

/-- What is kept at a place. -/
def cell (s : Store) : Place → Cell
  | .pair r => .pair (s.pair r)
  | .closure c => .closure (s.closure c)
  | .frame f => .frame (s.frame f)

/-- The number of things of a kind. -/
def count (s : Store) : Kind → Nat
  | .pair => s.pairs.size
  | .closure => s.closures.size
  | .frame => s.frames.size

/-- There is something at a place. -/
def Has (s : Store) (p : Place) : Prop := p.index < s.count p.kind

instance (s : Store) (p : Place) : Decidable (s.Has p) :=
  inferInstanceAs (Decidable (p.index < s.count p.kind))

/-- The places that can be reached from those in `roots`. -/
inductive Reachable (s : Store) (roots : Place → Prop) : Place → Prop
  | root {p : Place} : roots p → Reachable s roots p
  | step {p q : Place} : Reachable s roots p → (s.cell p).Mentions q → Reachable s roots q

/-- In `t`, there is another cell at the place `p` than in `s`, with the same frame
    around it; nothing else is different. -/
structure Replaces (s : Store) (p : Place) (c : Cell) (t : Store) : Prop where
  /-- There was something before. -/
  has : s.Has p
  /-- This is there now. -/
  cell_self : t.cell p = c
  /-- Everywhere else there is what was there before. -/
  cell_of_ne : ∀ q, q ≠ p → t.cell q = s.cell q
  /-- Nothing new has been made. -/
  count : ∀ k, t.count k = s.count k
  /-- No frame is put elsewhere. -/
  outer : c.outer = (s.cell p).outer

/-- In `t`, there is something new at the place `p`; nothing else is different. -/
structure Adds (s : Store) (p : Place) (c : Cell) (t : Store) : Prop where
  /-- The place was the next free one. -/
  next : p.index = s.count p.kind
  /-- This is there now. -/
  cell_self : t.cell p = c
  /-- Everywhere else there is what was there before. -/
  cell_of_ne : ∀ q, q ≠ p → t.cell q = s.cell q
  /-- One thing of this kind has been made. -/
  count : ∀ k, t.count k = s.count k + if k = p.kind then 1 else 0

section Changes

variable {s : Store}

theorem adds_cons (v w : Value) :
    s.Adds (.pair ⟨s.pairs.size⟩) (.pair ⟨v, w⟩) (s.cons v w).2 where
  next := rfl
  cell_self := congrArg Cell.pair pair_cons_self
  cell_of_ne
    | .pair r, h => congrArg Cell.pair (pair_cons_of_ne fun hr => h (by rw [← hr]))
    | .closure _, _ | .frame _, _ => rfl
  count
    | .pair => size_pairs_cons
    | .closure | .frame => rfl

theorem adds_newClosure (c : Closure) :
    s.Adds (.closure (s.newClosure c).1) (.closure c) (s.newClosure c).2 where
  next := rfl
  cell_self := congrArg Cell.closure ((closure_newClosure c _).trans (if_pos rfl))
  cell_of_ne
    | .closure r, h => congrArg Cell.closure
        ((closure_newClosure c r).trans (if_neg fun hr => h (by rw [newClosure, ← hr])))
    | .pair _, _ | .frame _, _ => rfl
  count
    | .closure => Array.size_push _
    | .pair | .frame => rfl

theorem adds_newFrame (outer : Option FrameRef) :
    s.Adds (.frame (s.newFrame outer).1) (.frame ⟨outer, []⟩) (s.newFrame outer).2 where
  next := rfl
  cell_self := congrArg Cell.frame frame_newFrame_self
  cell_of_ne
    | .frame f, h => congrArg Cell.frame
        (frame_newFrame_of_ne fun hf => h (by rw [newFrame, ← hf]))
    | .pair _, _ | .closure _, _ => rfl
  count
    | .frame => size_frames_newFrame
    | .pair | .closure => rfl

variable {r : PairRef} {f : FrameRef}

theorem replaces_setCar (h : s.Has (.pair r)) (v : Value) :
    s.Replaces (.pair r) (.pair ⟨v, (s.pair r).cdr⟩) (s.setCar r v) where
  has := h
  cell_self := congrArg Cell.pair (pair_setCar_self h)
  cell_of_ne
    | .pair q, hq => congrArg Cell.pair (pair_setCar_of_ne fun heq => hq (by rw [heq]))
    | .closure _, _ | .frame _, _ => rfl
  count
    | .pair => size_pairs_setCar
    | .closure | .frame => rfl
  outer := rfl

theorem replaces_setCdr (h : s.Has (.pair r)) (v : Value) :
    s.Replaces (.pair r) (.pair ⟨(s.pair r).car, v⟩) (s.setCdr r v) where
  has := h
  cell_self := congrArg Cell.pair (pair_setCdr_self h)
  cell_of_ne
    | .pair q, hq => congrArg Cell.pair (pair_setCdr_of_ne fun heq => hq (by rw [heq]))
    | .closure _, _ | .frame _, _ => rfl
  count
    | .pair => size_pairs_setCdr
    | .closure | .frame => rfl
  outer := rfl

theorem replaces_define (h : s.Has (.frame f)) (name : String) (v : Value) :
    s.Replaces (.frame f)
      (.frame { s.frame f with bindings := (s.frame f).bindings.insert name v })
      (s.define f name v) where
  has := h
  cell_self := congrArg Cell.frame (frame_define_self h)
  cell_of_ne
    | .frame g, hg => congrArg Cell.frame (frame_define_of_ne fun heq => hg (by rw [heq]))
    | .pair _, _ | .closure _, _ => rfl
  count
    | .frame => size_frames_define
    | .pair | .closure => rfl
  outer := rfl

theorem modify_of_size_le {α : Type} {xs : Array α} {i : Nat} (h : xs.size ≤ i) (f : α → α) :
    xs.modify i f = xs := by
  refine Array.ext (Array.size_modify ..) fun j hj hj' => ?_
  rw [Array.getElem_modify, if_neg (by omega)]

/-! Where there is nothing, nothing happens. -/

theorem setCar_of_not_has (h : ¬s.Has (.pair r)) (v : Value) : s.setCar r v = s := by
  have hle : s.pairs.size ≤ r.index := Nat.le_of_not_lt h
  rw [setCar, modify_of_size_le hle]

theorem setCdr_of_not_has (h : ¬s.Has (.pair r)) (v : Value) : s.setCdr r v = s := by
  have hle : s.pairs.size ≤ r.index := Nat.le_of_not_lt h
  rw [setCdr, modify_of_size_le hle]

theorem define_of_not_has (h : ¬s.Has (.frame f)) (name : String) (v : Value) :
    s.define f name v = s := by
  have hle : s.frames.size ≤ f.index := Nat.le_of_not_lt h
  rw [define, modify_of_size_le hle]

end Changes

end Store

end SmallScheme
