import Mathlib.Data.List.TakeDrop
import SmallScheme.Datum

/-!
# Lists item by item

What a list is made of, said one item after another (`Datum.foldFrom`): an item is put in
front of the list of those after it, up to a dot, which decides by its own place whether
it may stand there, and to which list the item after it then belongs.

`Datum.ofItems` goes another way. It looks for the first dot among the items from a
position on, counts what comes before and after it, and puts the items before it
together at once. The two agree at every position (`Datum.ofItems_eq_foldFrom`), since
`ofItems` satisfies the equations of the recursion: a dot that is first is judged by its
place (`ofItems_of_dot`), and an item that is no dot changes neither where the first dot
stands nor how much comes after it (`ofItems_of_ne_dot`).
-/

namespace SmallScheme.Datum

/-- The list of the items from position `pos` on, made from its last item to its
    first. -/
def foldFrom (items : List (Datum × Span)) (pos : Nat) : Except ReadError Datum :=
  if h : pos < items.length then
    if items[pos].1 = dot then
      if hplace : pos = 0 ∨ pos + 2 ≠ items.length then .error (.misplacedDot items[pos].2)
      else .ok items[pos + 1].1
    else (foldFrom items (pos + 1)).map (pair items[pos].1)
  else .ok nil
termination_by items.length - pos

section Steps

variable {items : List (Datum × Span)} {pos : Nat}

theorem ofItems_of_length_le (h : items.length ≤ pos) : ofItems items pos = .ok nil := by
  rw [ofItems, List.drop_of_length_le h]
  rfl

/-- A dot at the position itself is judged by what comes before and after it. -/
theorem ofItems_of_dot (h : pos < items.length) (hdot : items[pos].1 = dot) :
    ofItems items pos =
      if hplace : pos = 0 ∨ pos + 2 ≠ items.length then .error (.misplacedDot items[pos].2)
      else .ok items[pos + 1].1 := by
  have hspan : (items.drop pos).span (fun item => item.1 != dot) =
      ([], items[pos] :: items.drop (pos + 1)) := by
    rw [List.drop_eq_getElem_cons h, List.span_eq_takeWhile_dropWhile]
    simp only [List.takeWhile_cons, List.dropWhile_cons, hdot, bne_self_eq_false,
      Bool.false_eq_true, if_false]
  rw [ofItems, hspan]
  have hlength : (items.drop (pos + 1)).length = items.length - (pos + 1) := List.length_drop
  rcases hback : items.drop (pos + 1) with _ | ⟨last, _ | ⟨_, _⟩⟩
  · rw [hback, List.length_nil] at hlength
    rw [dif_pos (.inr (by omega))]
  · rw [hback, List.length_singleton] at hlength
    have hnext : pos + 1 < items.length := by omega
    have hlast : items[pos + 1] = last := by
      rw [List.drop_eq_getElem_cons hnext] at hback
      exact (List.cons.inj hback).1
    by_cases hzero : pos = 0
    · rw [dif_pos (.inl hzero)]
      exact if_pos hzero
    · rw [dif_neg (by omega), hlast]
      exact if_neg hzero
  · rw [hback, List.length_cons, List.length_cons] at hlength
    rw [dif_pos (.inr (by omega))]

/-- Any other item there is put in front of the list of the items after it. -/
theorem ofItems_of_ne_dot (h : pos < items.length) (hdot : items[pos].1 ≠ dot) :
    ofItems items pos = (ofItems items (pos + 1)).map (pair items[pos].1) := by
  have hspan : (items.drop pos).span (fun item => item.1 != dot) =
      (items[pos] :: ((items.drop (pos + 1)).span fun item => item.1 != dot).1,
        ((items.drop (pos + 1)).span fun item => item.1 != dot).2) := by
    rw [List.drop_eq_getElem_cons h, List.span_eq_takeWhile_dropWhile,
      List.span_eq_takeWhile_dropWhile]
    simp only [List.takeWhile_cons, List.dropWhile_cons, bne_iff_ne.mpr hdot, if_true]
  rw [ofItems, hspan, ofItems]
  generalize (items.drop (pos + 1)).span (fun item => item.1 != dot) = split
  obtain ⟨front, _ | ⟨mark, _ | ⟨last, _ | ⟨_, _⟩⟩⟩⟩ := split
  · rfl
  · rfl
  · -- The dot is not the first of all items, from either position.
    simp only [List.length_cons]
    rw [if_neg (by omega), if_neg (by omega)]
    rfl
  · rfl

end Steps

/-- A list made at once is the list made item by item, in value, error and place, from
    every position on, also beyond the last item. -/
theorem ofItems_eq_foldFrom (items : List (Datum × Span)) (pos : Nat) :
    ofItems items pos = foldFrom items pos := by
  fun_induction foldFrom items pos with
  | case1 pos h hdot hplace => rw [ofItems_of_dot h hdot, dif_pos hplace]
  | case2 pos h hdot hplace => rw [ofItems_of_dot h hdot, dif_neg hplace]
  | case3 pos h hdot ih => rw [ofItems_of_ne_dot h hdot, ih]
  | case4 pos h => exact ofItems_of_length_le (Nat.le_of_not_lt h)

-- From the position of the dot on, there is the tail only.
example :
    ofItems [(symbol "a", ⟨1, 2⟩), (dot, ⟨3, 4⟩), (symbol "b", ⟨5, 6⟩)] 1 = .ok (symbol "b") :=
  rfl

end SmallScheme.Datum
