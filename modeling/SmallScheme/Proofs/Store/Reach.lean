import SmallScheme.Proofs.Store.Chain
import Mathlib

/-!
# What can be reached through pairs

From a pair its two components can be reached, from these theirs, and so on
(`Store.Reaches`). Closures are not entered. A value is *acyclic* if no pair
that can be reached from it can be reached again from its own components.
-/

namespace SmallScheme

namespace Store

/-- The second value is a component of the pair that the first one is. -/
inductive Link (s : Store) : Value → Value → Prop
  | car (r : PairRef) : Link s (.pair r) (s.pair r).car
  | cdr (r : PairRef) : Link s (.pair r) (s.pair r).cdr

/-- The second value can be reached from the first through components of pairs. -/
def Reaches (s : Store) : Value → Value → Prop := Relation.ReflTransGen s.Link

/-- No pair that can be reached from `v` is among what its components reach. -/
def Acyclic (s : Store) (v : Value) : Prop :=
  ∀ r, s.Reaches v (.pair r) → ¬ Relation.TransGen s.Link (.pair r) (.pair r)

variable {s : Store}

theorem Reaches.refl (v : Value) : s.Reaches v v := Relation.ReflTransGen.refl

theorem Reaches.trans {u v w : Value} (h : s.Reaches u v) (h' : s.Reaches v w) : s.Reaches u w :=
  Relation.ReflTransGen.trans h h'

theorem reaches_car (r : PairRef) : s.Reaches (.pair r) (s.pair r).car := .single (.car r)

theorem reaches_cdr (r : PairRef) : s.Reaches (.pair r) (s.pair r).cdr := .single (.cdr r)

/-- Going along a chain stays within reach, wherever it stops. -/
theorem reaches_of_walk : ∀ {k : Nat} {v w : Value},
    s.walk k v = .ok w ∨ s.walk k v = .error w → s.Reaches v w
  | 0, v, w, h => by
    obtain rfl : v = w := by simpa [walk] using h
    exact .refl v
  | k + 1, .pair r, w, h => (reaches_cdr r).trans (reaches_of_walk (k := k) h)
  | k + 1, .nil, w, h | k + 1, .integer _, w, h | k + 1, .symbol _, w, h
  | k + 1, .closure _, w, h => by
    obtain rfl := by simpa [walk] using h
    exact .refl _

/-- The elements of a chain are within reach. -/
theorem reaches_of_elements? {v tail : Value} {items : List Value}
    (h : s.elements? v = some (items, tail)) : ∀ item ∈ items, s.Reaches v item :=
  forall_mem_of_elements? (P := s.Reaches v)
    (fun r hr => ⟨hr.trans (reaches_car r), hr.trans (reaches_cdr r)⟩) (.refl v) h

theorem Acyclic.of_reaches {v w : Value} (h : s.Acyclic v) (hw : s.Reaches v w) : s.Acyclic w :=
  fun r hr => h r (hw.trans hr)

end Store

end SmallScheme
