import SmallScheme.Proofs.Store.Unfolding
import SmallScheme.Store.Printer

/-!
# What is printed

The display of a tree (`Tree.display`) by recursion on the tree, without a store
and without anything written before it. The display and the rendering of a value
are those of its unfolding (`display?_eq_some`, `render?_eq_some`).
-/

namespace SmallScheme

namespace Tree

/-- The form in which a tree stands among the elements of a list, if `text` is its
    display. -/
def enclosed (tree : Tree) (text : String) : String :=
  match tree with
  | pair _ _ => "(" ++ text ++ ")"
  | nil | integer _ | symbol _ | closure _ => text

/-- The form in which a tree follows the elements of a list as its tail, if `text`
    is its display. -/
def linked (tree : Tree) (text : String) : String :=
  match tree with
  | nil => ""
  | pair _ _ => " " ++ text
  | integer _ | symbol _ | closure _ => " . " ++ text

/-- The display of a tree: for a pair, the inside of a list up to the first element
    that is the empty list. -/
def display : Tree → String
  | nil => "()"
  | integer n => n.text
  | symbol name => name
  | closure _ => "#<closure>"
  | pair car cdr =>
    if car = nil then "()" else car.enclosed car.display ++ cdr.linked cdr.display

/-- The rendering of a tree. -/
def render (tree : Tree) : String := tree.enclosed tree.display

end Tree

namespace Store

variable {s : Store} {v : Value} {r : PairRef} {tree : Tree}

/-- A value is the empty list just if it looks like it. -/
theorem Unfolds.eq_nil_iff (h : s.Unfolds v tree) : v = .nil ↔ tree = .nil := by
  cases h <;> simp

/-- The inside of a list is written after what has been written before. -/
theorem writePair_eq_some {n : Nat} (h : s.Unfolds (.pair r) tree) (hn : tree.height ≤ n)
    (out : String) : s.writePair n r out = some (out ++ tree.display) := by
  induction n generalizing r tree out with
  | zero =>
    cases h
    exact absurd hn (Nat.not_succ_le_zero _)
  | succ n ih =>
    cases h with
    | @pair _ car cdr hcar hcdr =>
      obtain ⟨hcarle, hcdrle⟩ := Nat.max_le.1 (Nat.le_of_succ_le_succ hn)
      rw [writePair, Tree.display]
      by_cases hnil : (s.pair r).car = .nil
      · rw [if_pos hnil, if_pos (hcar.eq_nil_iff.1 hnil)]
      · rw [if_neg hnil, if_neg fun h => hnil (hcar.eq_nil_iff.2 h)]
        -- How the chain goes on does not depend on the element before.
        have hrest : ∀ out, s.writeRest n (s.pair r).cdr out =
            some (out ++ cdr.linked cdr.display) := by
          intro out
          generalize (s.pair r).cdr = second at hcdr
          cases hcdr with
          | nil => simp [writeRest_nil, Tree.linked]
          | integer | symbol | closure =>
            simp [writeRest_tail, Tree.linked, Tree.display, Value.atomText, String.append_assoc]
          | pair hcar hcdr =>
            rw [writeRest_pair, ih (.pair hcar hcdr) hcdrle]
            simp [Tree.linked, String.append_assoc]
        generalize (s.pair r).car = first at hcar
        rw [← String.append_assoc]
        cases hcar with
        | nil | integer | symbol | closure => exact hrest _
        | pair hcar hcdr =>
          simp only [writeElement, ih (.pair hcar hcdr) hcarle]
          refine (hrest _).trans ?_
          simp [Tree.enclosed, String.append_assoc]

/-- A value whose unfolding is no higher than the bound on the way down has a
    display. -/
theorem display?_eq_some (h : s.Unfolds v tree) (hheight : tree.height ≤ s.pairs.size + 1) :
    s.display? v = some tree.display := by
  cases h with
  | nil | integer | symbol | closure => rfl
  | pair hcar hcdr => simp [display?, writePair_eq_some (.pair hcar hcdr) hheight]

theorem render?_eq_some (h : s.Unfolds v tree) (hheight : tree.height ≤ s.pairs.size + 1) :
    s.render? v = some tree.render := by
  cases h with
  | nil | integer | symbol | closure => rfl
  | pair hcar hcdr =>
    rw [render?, writePair_eq_some (.pair hcar hcdr) hheight]
    rfl

end Store

end SmallScheme
