import SmallScheme.Proofs.Store.Chain
import SmallScheme.Proofs.Store.Place
import SmallScheme.Store.Printer
import SmallScheme.Store.Scope

/-!
# Stores without a name

A store *without* a name is the same store with all bindings of that name taken
out of its frames (`Store.without`). Whoever does not use the name cannot tell the
two apart: what other names mean is the same (`lookup?_without`), and every change
of the store that has nothing to do with the name can be made before or after it is
taken out (`without_define`, `newFrame_without`). A definition of the name itself does
not show at all (`without_define_self`).
-/

namespace SmallScheme

namespace Bindings

/-- The bindings of all other names. -/
def without (b : Bindings) (name : String) : Bindings := b.filter fun entry => entry.1 != name

variable {name other : String} {v w : Value} {b : Bindings}

theorem without_cons_self : without ((name, v) :: b) name = b.without name := by simp [without]

theorem without_cons_of_ne (h : other ≠ name) :
    without ((other, v) :: b) name = (other, v) :: b.without name := by simp [without, h]

theorem lookup_without (h : other ≠ name) : (b.without name).lookup other = b.lookup other := by
  induction b with
  | nil => rfl
  | cons entry b ih =>
    obtain ⟨bound, w⟩ := entry
    by_cases hb : bound = name
    · subst hb
      have hne : (other == bound) = false := by simpa using h
      rw [without_cons_self, ih, List.lookup_cons, hne]
    · rw [without_cons_of_ne hb, List.lookup_cons, List.lookup_cons, ih]

theorem without_insert_self : (b.insert name v).without name = b.without name := by
  induction b with
  | nil => exact without_cons_self
  | cons entry b ih =>
    obtain ⟨bound, w⟩ := entry
    rw [insert]
    split
    case isTrue hb =>
      subst hb
      rw [without_cons_self, without_cons_self]
    case isFalse hb => rw [without_cons_of_ne hb, without_cons_of_ne hb, ih]

theorem without_insert (h : other ≠ name) :
    (b.insert other v).without name = (b.without name).insert other v := by
  induction b with
  | nil => exact without_cons_of_ne h
  | cons entry b ih =>
    obtain ⟨bound, w⟩ := entry
    by_cases hb : bound = name
    · subst hb
      rw [insert, if_neg (Ne.symm h), without_cons_self, without_cons_self, ih]
    · rw [without_cons_of_ne hb, insert, insert]
      split
      · rw [without_cons_of_ne h]
      · rw [without_cons_of_ne hb, ih]

end Bindings

/-- The frame with the bindings of all other names. -/
def Frame.without (f : Frame) (name : String) : Frame :=
  { f with bindings := f.bindings.without name }

theorem Frame.outer_without (f : Frame) (name : String) : (f.without name).outer = f.outer := rfl

/-- The cell with the bindings of all other names, if it is that of a frame. -/
def Cell.without (c : Cell) (name : String) : Cell :=
  match c with
  | .frame f => .frame (f.without name)
  | .pair _ | .closure _ => c

namespace Store

/-- The store with the bindings of all other names. -/
def without (s : Store) (name : String) : Store :=
  { s with frames := s.frames.map fun f => f.without name }

variable {s : Store} {name other : String} {f g : FrameRef} {v w : Value}

/-! ## What is read -/

theorem pairs_without : (s.without name).pairs = s.pairs := rfl

theorem elements?_without (v : Value) : (s.without name).elements? v = s.elements? v :=
  elements?_congr pairs_without v

theorem next?_without (v : Value) : (s.without name).next? v = s.next? v := rfl

theorem chase_without (n : Nat) (slow fast : Value) :
    (s.without name).chase n slow fast = s.chase n slow fast := by
  induction n generalizing slow fast with
  | zero => rfl
  | succ n ih => simp only [chase, next?_without, ih]

theorem isList_without (v : Value) : (s.without name).isList v = s.isList v :=
  congrArg (Option.getD · false) (chase_without _ v v)

theorem walk_without (k : Nat) (v : Value) : (s.without name).walk k v = s.walk k v := by
  induction k generalizing v with
  | zero => rfl
  | succ k ih =>
    cases v with
    | pair r => exact ih _
    | nil | integer | symbol | closure => rfl

theorem writePair_without (n : Nat) (r : PairRef) (out : String) :
    (s.without name).writePair n r out = s.writePair n r out := by
  induction n generalizing r out with
  | zero => rfl
  | succ n ih =>
    have hinside : (s.without name).writePair n = s.writePair n :=
      funext fun r => funext fun out => ih r out
    have hrest : ∀ v out, (s.without name).writeRest n v out = s.writeRest n v out := by
      intro v out
      cases v with
      | pair r => rw [writeRest_pair, writeRest_pair, ih]
      | nil | integer | symbol | closure => cases n <;> rfl
    simp only [writePair, hinside, hrest, pair_congr pairs_without]

theorem render?_without (v : Value) : (s.without name).render? v = s.render? v := by
  cases v with
  | pair r => exact congrArg (Option.map (· ++ ")")) (writePair_without _ r _)
  | nil | integer | symbol | closure => rfl

theorem frame_without : (s.without name).frame f = (s.frame f).without name := by
  simp only [frame, without, Array.getD_eq_getD_getElem?, Array.getElem?_map]
  cases s.frames[f.index]? <;> rfl

theorem cell_without (p : Place) : (s.without name).cell p = (s.cell p).without name := by
  cases p with
  | pair | closure => rfl
  | frame f => exact congrArg Cell.frame frame_without

theorem count_without (k : Kind) : (s.without name).count k = s.count k := by
  cases k with
  | pair | closure => rfl
  | frame => exact Array.size_map ..

theorem has_without {p : Place} : (s.without name).Has p ↔ s.Has p := by
  rw [Has, Has, count_without]

theorem scopesUpTo_without (n : Nat) : (s.without name).scopesUpTo n f = s.scopesUpTo n f := by
  induction n generalizing f with
  | zero => rfl
  | succ n ih =>
    rw [scopesUpTo, scopesUpTo, frame_without, Frame.outer_without]
    cases (s.frame f).outer with
    | none => rfl
    | some outer => exact congrArg _ ih

theorem scopes_without : (s.without name).scopes f = s.scopes f := scopesUpTo_without _

theorem lookup?_without (h : other ≠ name) :
    (s.without name).lookup? f other = s.lookup? f other := by
  rw [lookup?, lookup?, scopes_without]
  refine congrArg (List.findSome? · _) (funext fun g => ?_)
  rw [frame_without]
  exact Bindings.lookup_without h

theorem bindsLocally_without (h : other ≠ name) :
    (s.without name).bindsLocally f other = s.bindsLocally f other := by
  rw [bindsLocally, bindsLocally, frame_without]
  exact congrArg Option.isSome (Bindings.lookup_without h)

/-! ## What is changed -/

theorem newFrame_without (outer : Option FrameRef) : (s.without name).newFrame outer =
    ((s.newFrame outer).1, (s.newFrame outer).2.without name) := by
  simp [newFrame, without, Frame.without, Bindings.without]

/-- A frame can be changed before or after the name is taken out of all. -/
theorem without_modify {i : Nat} {g h : Frame → Frame}
    (hg : ∀ frame, (g frame).without name = h (frame.without name)) :
    ({ s with frames := s.frames.modify i g } : Store).without name =
      { s.without name with frames := (s.without name).frames.modify i h } := by
  simp only [without, mk.injEq, true_and]
  refine Array.ext (by simp) fun j hj hj' => ?_
  simp only [Array.getElem_map, Array.getElem_modify]
  split
  · exact hg _
  · rfl

theorem without_define (h : other ≠ name) :
    (s.define f other v).without name = (s.without name).define f other v :=
  without_modify fun frame => congrArg (Frame.mk frame.outer) (Bindings.without_insert h)

theorem without_define_self : (s.define f name v).without name = s.without name := by
  have hid : (s.without name).frames.modify f.index id = (s.without name).frames :=
    Array.ext (by simp) (by simp [Array.getElem_modify])
  have hmodify : (s.define f name v).without name =
      { s.without name with frames := (s.without name).frames.modify f.index id } :=
    without_modify fun frame => congrArg (Frame.mk frame.outer) Bindings.without_insert_self
  rw [hmodify, hid]

end Store

end SmallScheme
