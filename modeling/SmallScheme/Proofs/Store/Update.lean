import SmallScheme.Store.Load

/-!
# What is read after a change

How each change of a store shows where the store is read: what is new is found
at the next free number, what is changed at its own place, and everywhere else
there is what was there before.
-/

namespace SmallScheme

theorem Bindings.mem_insert {name : String} {v : Value} {b : Bindings} {entry : String × Value}
    (h : entry ∈ b.insert name v) : entry = (name, v) ∨ entry ∈ b := by
  induction b with
  | nil => exact .inl (List.mem_singleton.1 h)
  | cons first rest ih =>
    rw [insert] at h
    split at h
    · exact (List.mem_cons.1 h).imp_right (List.mem_cons_of_mem _)
    · rcases List.mem_cons.1 h with rfl | h
      · exact .inr List.mem_cons_self
      · exact (ih h).imp_right (List.mem_cons_of_mem _)

namespace Store

variable {s t : Store}

/-! ## Pairs -/

section Pairs

variable {r q : PairRef} {v w : Value}

theorem pair_congr (h : t.pairs = s.pairs) (r : PairRef) : t.pair r = s.pair r := by
  rw [pair, pair, h]

/-- Where there is no pair, one of two empty lists is read. -/
theorem pair_of_le (h : s.pairs.size ≤ r.index) : s.pair r = ⟨.nil, .nil⟩ := by
  simp [pair, Array.getD_eq_getD_getElem?, Array.getElem?_eq_none h]
  rfl

@[simp] theorem size_pairs_cons : (s.cons v w).2.pairs.size = s.pairs.size + 1 := by
  simp [cons]

theorem pair_cons_self : (s.cons v w).2.pair ⟨s.pairs.size⟩ = ⟨v, w⟩ := by
  simp [pair, cons, Array.getD_eq_getD_getElem?]

theorem pair_cons_of_ne (h : r.index ≠ s.pairs.size) : (s.cons v w).2.pair r = s.pair r := by
  simp [pair, cons, Array.getD_eq_getD_getElem?, Array.getElem?_push, h]

@[simp] theorem size_pairs_setCar : (s.setCar r v).pairs.size = s.pairs.size := by
  simp [setCar]

@[simp] theorem size_pairs_setCdr : (s.setCdr r v).pairs.size = s.pairs.size := by
  simp [setCdr]

theorem pair_setCar_self (h : r.index < s.pairs.size) :
    (s.setCar r v).pair r = ⟨v, (s.pair r).cdr⟩ := by
  simp [pair, setCar, Array.getD_eq_getD_getElem?, Array.getElem_modify, h]

theorem pair_setCdr_self (h : r.index < s.pairs.size) :
    (s.setCdr r v).pair r = ⟨(s.pair r).car, v⟩ := by
  simp [pair, setCdr, Array.getD_eq_getD_getElem?, Array.getElem_modify, h]

theorem pair_setCar_of_ne (h : q ≠ r) : (s.setCar r v).pair q = s.pair q := by
  have hne : r.index ≠ q.index := fun he => h (by cases q; cases r; exact congrArg _ he.symm)
  simp [pair, setCar, Array.getD_eq_getD_getElem?, Array.getElem?_modify, hne]

theorem pair_setCdr_of_ne (h : q ≠ r) : (s.setCdr r v).pair q = s.pair q := by
  have hne : r.index ≠ q.index := fun he => h (by cases q; cases r; exact congrArg _ he.symm)
  simp [pair, setCdr, Array.getD_eq_getD_getElem?, Array.getElem?_modify, hne]

end Pairs

/-! ## Closures -/

theorem closure_congr (h : t.closures = s.closures) (r : ClosureRef) :
    t.closure r = s.closure r := by
  rw [closure, closure, h]

theorem closure_newClosure (c : Closure) (r : ClosureRef) :
    (s.newClosure c).2.closure r = if r.index = s.closures.size then c else s.closure r := by
  simp only [closure, newClosure, Array.getD_eq_getD_getElem?, Array.getElem?_push]
  split <;> rfl

/-! ## Frames -/

section Frames

variable {f g : FrameRef} {name : String} {v : Value} {outer : Option FrameRef}
  {entries : Bindings}

/-- Binds names in the frame `f` itself, one after another. -/
def bind (s : Store) (f : FrameRef) (entries : Bindings) : Store :=
  entries.foldl (fun s (name, v) => s.define f name v) s

theorem frame_congr (h : t.frames = s.frames) (f : FrameRef) : t.frame f = s.frame f := by
  rw [frame, frame, h]

theorem frame_of_le (h : s.frames.size ≤ f.index) : s.frame f = ⟨none, []⟩ := by
  simp [frame, Array.getD_eq_getD_getElem?, Array.getElem?_eq_none h]
  rfl

@[simp] theorem size_frames_define : (s.define f name v).frames.size = s.frames.size := by
  simp [define]

theorem frame_define_self (h : f.index < s.frames.size) : (s.define f name v).frame f =
    { s.frame f with bindings := (s.frame f).bindings.insert name v } := by
  simp [frame, define, Array.getD_eq_getD_getElem?, Array.getElem_modify, h]

theorem frame_define_of_ne (h : g ≠ f) : (s.define f name v).frame g = s.frame g := by
  have hne : f.index ≠ g.index := fun he => h (by cases f; cases g; exact congrArg _ he.symm)
  simp [frame, define, Array.getElem?_modify, Array.getD_eq_getD_getElem?, hne]

theorem lookup_define_self (h : f.index < s.frames.size) :
    ((s.define f name v).frame f).bindings.lookup name = some v := by
  rw [frame_define_self h]
  exact Bindings.lookup_insert_self ..

theorem lookup_define_of_ne {other : String} (hne : other ≠ name) :
    ((s.define f name v).frame g).bindings.lookup other = (s.frame g).bindings.lookup other := by
  by_cases hg : g = f
  · subst hg
    by_cases hlt : g.index < s.frames.size
    · rw [frame_define_self hlt]
      exact Bindings.lookup_insert_of_ne v _ hne
    · have hle : s.frames.size ≤ g.index := Nat.le_of_not_lt hlt
      rw [frame_of_le hle, frame_of_le (by rwa [size_frames_define])]
  · rw [frame_define_of_ne hg]

theorem mem_bindings_define {entry : String × Value}
    (h : entry ∈ ((s.define f name v).frame g).bindings) :
    entry = (name, v) ∨ entry ∈ (s.frame g).bindings := by
  by_cases hg : g = f
  · subst hg
    by_cases hlt : g.index < s.frames.size
    · rw [frame_define_self hlt] at h
      exact Bindings.mem_insert h
    · -- There is no such frame, and nothing is bound in it.
      rw [frame_of_le (by rw [size_frames_define]; exact Nat.le_of_not_lt hlt)] at h
      exact absurd h List.not_mem_nil
  · rw [frame_define_of_ne hg] at h
    exact .inr h

@[simp] theorem outer_frame_define : ((s.define f name v).frame g).outer = (s.frame g).outer := by
  simp only [frame, define, Array.getD_eq_getD_getElem?, Array.getElem?_modify]
  split
  · cases s.frames[g.index]? <;> rfl
  · rfl

@[simp] theorem size_frames_newFrame : (s.newFrame outer).2.frames.size = s.frames.size + 1 := by
  simp [newFrame]

theorem frame_newFrame_self : (s.newFrame outer).2.frame ⟨s.frames.size⟩ = ⟨outer, []⟩ := by
  simp [frame, newFrame, Array.getD_eq_getD_getElem?]

theorem frame_newFrame_of_ne (h : g.index ≠ s.frames.size) :
    (s.newFrame outer).2.frame g = s.frame g := by
  simp [frame, newFrame, Array.getD_eq_getD_getElem?, Array.getElem?_push, h]

theorem mem_bindings_newFrame {entry : String × Value}
    (h : entry ∈ ((s.newFrame outer).2.frame g).bindings) : entry ∈ (s.frame g).bindings := by
  by_cases hg : g.index = s.frames.size
  · obtain rfl : g = ⟨s.frames.size⟩ := by rw [← hg]
    rw [frame_newFrame_self] at h
    exact absurd h List.not_mem_nil
  · rwa [frame_newFrame_of_ne hg] at h

theorem pairs_bind : (s.bind f entries).pairs = s.pairs := by
  induction entries generalizing s with
  | nil => rfl
  | cons entry entries ih => exact ih

theorem closures_bind : (s.bind f entries).closures = s.closures := by
  induction entries generalizing s with
  | nil => rfl
  | cons entry entries ih => exact ih

@[simp] theorem size_frames_bind : (s.bind f entries).frames.size = s.frames.size := by
  induction entries generalizing s with
  | nil => rfl
  | cons entry entries ih => exact ih.trans size_frames_define

theorem frame_bind_of_ne (h : g ≠ f) : (s.bind f entries).frame g = s.frame g := by
  induction entries generalizing s with
  | nil => rfl
  | cons entry entries ih => exact ih.trans (frame_define_of_ne h)

theorem mem_bindings_bind {entry : String × Value}
    (h : entry ∈ ((s.bind f entries).frame g).bindings) :
    entry ∈ entries ∨ entry ∈ (s.frame g).bindings := by
  induction entries generalizing s with
  | nil => exact .inr h
  | cons first rest ih =>
    rcases ih h with hmem | hmem
    · exact .inl (List.mem_cons_of_mem _ hmem)
    · rcases mem_bindings_define hmem with rfl | hmem
      · exact .inl List.mem_cons_self
      · exact .inr hmem

@[simp] theorem outer_frame_bind : ((s.bind f entries).frame g).outer = (s.frame g).outer := by
  induction entries generalizing s with
  | nil => rfl
  | cons entry entries ih => exact ih.trans outer_frame_define

end Frames

/-! ## Data -/

theorem size_pairs_le_load (d : Datum) : s.pairs.size ≤ (s.load d).2.pairs.size := by
  induction d generalizing s with
  | nil | integer | symbol => exact Nat.le_refl _
  | pair car cdr ihcar ihcdr =>
    calc s.pairs.size
      _ ≤ (s.load car).2.pairs.size := ihcar
      _ ≤ ((s.load car).2.load cdr).2.pairs.size := ihcdr
      _ ≤ (s.load (.pair car cdr)).2.pairs.size := by simp [load]

theorem pair_load_of_lt (d : Datum) {r : PairRef} (h : r.index < s.pairs.size) :
    (s.load d).2.pair r = s.pair r := by
  induction d generalizing s with
  | nil | integer | symbol => rfl
  | pair car cdr ihcar ihcdr =>
    have hcar := Nat.lt_of_lt_of_le h (size_pairs_le_load car)
    have hcdr := Nat.lt_of_lt_of_le hcar (size_pairs_le_load cdr)
    rw [load, pair_cons_of_ne (Nat.ne_of_lt hcdr), ihcdr hcar, ihcar h]

theorem frames_load (d : Datum) : (s.load d).2.frames = s.frames := by
  induction d generalizing s with
  | nil | integer | symbol => rfl
  | pair car cdr ihcar ihcdr => exact ihcdr.trans ihcar

theorem closures_load (d : Datum) : (s.load d).2.closures = s.closures := by
  induction d generalizing s with
  | nil | integer | symbol => rfl
  | pair car cdr ihcar ihcdr => exact ihcdr.trans ihcar

/-! Storing a datum and making a closure or a binding can be done in either order. -/

theorem load_newClosure (c : Closure) (d : Datum) :
    (s.newClosure c).2.load d = ((s.load d).1, ((s.load d).2.newClosure c).2) := by
  induction d generalizing s with
  | nil | integer | symbol => rfl
  | pair car cdr ihcar ihcdr =>
    rw [load, ihcar]
    dsimp only
    rw [ihcdr]
    rfl

theorem load_define (f : FrameRef) (name : String) (v : Value) (d : Datum) :
    (s.define f name v).load d = ((s.load d).1, (s.load d).2.define f name v) := by
  induction d generalizing s with
  | nil | integer | symbol => rfl
  | pair car cdr ihcar ihcdr =>
    rw [load, ihcar]
    dsimp only
    rw [ihcdr]
    rfl

end Store

end SmallScheme
