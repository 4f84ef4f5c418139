import SmallScheme.Proofs.Console.Brackets
import Mathlib.Data.List.Basic

/-!
# Pairs of brackets

Which brackets of a text belong together is said here without a scan: a bracket closes
the one before it from which it is separated by nested pairs only (`Nested`, `Paired`).
Comments do not count, nor does it matter what else the text holds.

The brackets that are open somewhere in a text (`stillOpen`) then answer for the pairs:
nested pairs leave them as they are (`Nested.stillOpen_eq`), so the latest of them is
the one that a close bracket closes (`paired_iff`). As no two brackets stand at the
same byte, every bracket belongs to one pair at most (`Paired.unique`).
-/

namespace SmallScheme.Console

open Text

/-- The brackets of a text outside its comments, with the bytes at which they stand. -/
def brackets (cs : List Char) : List (Nat × Char) :=
  (withOffsets 0 cs).filter fun (offset, c) =>
    (c == '(' || c == ')') && !Verdict.hasComment (takeBytes offset cs)

/-- Brackets that are pairs side by side, with such brackets in them. -/
inductive Nested : List (Nat × Char) → Prop
  | nil : Nested []
  | pair {opened closed : Nat} {inner rest : List (Nat × Char)} :
      Nested inner → Nested rest →
      Nested ((opened, '(') :: inner ++ (closed, ')') :: rest)

/-- The bracket at byte `closed` closes the one at byte `opened`. -/
def Paired (cs : List Char) (opened closed : Nat) : Prop :=
  ∃ before inner after, Nested inner ∧
    brackets cs = before ++ (opened, '(') :: inner ++ (closed, ')') :: after

/-- The bytes of the brackets that are open after the brackets `bs`, the latest first,
    if those of `st` were open before. A bracket that closes nothing leaves nothing open. -/
def stillOpen (st : List Nat) : List (Nat × Char) → List Nat
  | [] => st
  | (offset, c) :: bs => stillOpen (if c = '(' then offset :: st else st.tail) bs

section Offsets

variable {cs pre rest : List Char} {c d : Char} {offset start : Nat}

theorem mem_withOffsets_iff : (offset, c) ∈ withOffsets start cs ↔
    ∃ pre rest, cs = pre ++ c :: rest ∧ offset = start + utf8Length pre := by
  induction cs generalizing start with
  | nil => simp [withOffsets]
  | cons d cs ih =>
    rw [withOffsets, List.mem_cons, ih]
    constructor
    · rintro (h | ⟨pre, rest, rfl, rfl⟩)
      · cases h
        exact ⟨[], cs, rfl, rfl⟩
      · exact ⟨d :: pre, rest, rfl, Nat.add_assoc ..⟩
    · rintro ⟨pre, rest, h, rfl⟩
      cases pre with
      | nil =>
        cases h
        exact .inl rfl
      | cons e pre =>
        cases h
        exact .inr ⟨pre, rest, rfl, (Nat.add_assoc ..).symm⟩

/-- The characters stand one after the other. -/
theorem pairwise_withOffsets (start : Nat) (cs : List Char) :
    (withOffsets start cs).Pairwise fun b d => b.1 < d.1 := by
  induction cs generalizing start with
  | nil => exact .nil
  | cons c cs ih =>
    refine List.pairwise_cons.2 ⟨fun ⟨offset, d⟩ h => ?_, ih _⟩
    obtain ⟨pre, rest, -, rfl⟩ := mem_withOffsets_iff.1 h
    have := c.utf8Size_pos
    show start < start + c.utf8Size + utf8Length pre
    omega

theorem nodup_withOffsets (start : Nat) (cs : List Char) :
    ((withOffsets start cs).map (·.1)).Nodup :=
  List.pairwise_map.2 ((pairwise_withOffsets start cs).imp Nat.ne_of_lt)

theorem nodup_brackets (cs : List Char) : ((brackets cs).map (·.1)).Nodup :=
  (nodup_withOffsets 0 cs).sublist (List.filter_sublist.map _)

theorem mem_brackets_iff : (offset, c) ∈ brackets cs ↔
    ∃ pre rest, cs = pre ++ c :: rest ∧ offset = utf8Length pre ∧ (c = '(' ∨ c = ')') ∧
      Verdict.hasComment pre = false := by
  rw [brackets, List.mem_filter, mem_withOffsets_iff]
  simp only [Bool.and_eq_true, Bool.or_eq_true, beq_iff_eq, Bool.not_eq_true', Nat.zero_add]
  constructor
  · rintro ⟨⟨pre, rest, rfl, rfl⟩, hc, hcomment⟩
    rw [takeBytes_utf8Length] at hcomment
    exact ⟨pre, rest, rfl, rfl, hc, hcomment⟩
  · rintro ⟨pre, rest, rfl, rfl, hc, hcomment⟩
    rw [takeBytes_utf8Length]
    exact ⟨⟨pre, rest, rfl, rfl⟩, hc, hcomment⟩

/-- No other character stands where a bracket does. -/
theorem char_unique (h : (offset, c) ∈ brackets cs) (h' : (offset, d) ∈ withOffsets 0 cs) :
    c = d :=
  congrArg Prod.snd
    (List.inj_on_of_nodup_map (nodup_withOffsets 0 cs) (List.mem_of_mem_filter h) h' rfl)

/-- The brackets of a text are those of what it begins with, and then others. -/
theorem brackets_append_singleton (pre : List Char) (c : Char) :
    brackets (pre ++ [c]) = brackets pre ++
      if (c == '(' || c == ')') && !Verdict.hasComment pre then [(utf8Length pre, c)] else [] := by
  rw [brackets, withOffsets_append, List.filter_append, brackets]
  congr 1
  · refine List.filter_congr fun ⟨offset, d⟩ h => ?_
    obtain ⟨before, after, rfl, rfl⟩ := mem_withOffsets_iff.1 h
    simp only [Nat.zero_add, takeBytes_utf8Length, List.append_assoc]
  · simp only [Nat.zero_add, withOffsets, List.filter_cons, List.filter_nil, takeBytes_utf8Length]

theorem brackets_append_of_not (h : Verdict.hasComment pre ∨ c ≠ '(' ∧ c ≠ ')') :
    brackets (pre ++ [c]) = brackets pre := by
  rw [brackets_append_singleton, if_neg, List.append_nil]
  obtain h | ⟨hopen, hclose⟩ := h
  · simp [h]
  · simp [hopen, hclose]

theorem brackets_append_paren (hc : c = '(' ∨ c = ')') (h : Verdict.hasComment pre = false) :
    brackets (pre ++ [c]) = brackets pre ++ [(utf8Length pre, c)] := by
  rw [brackets_append_singleton, if_pos]
  simp [hc, h]

theorem brackets_isPrefix (pre rest : List Char) : brackets pre <+: brackets (pre ++ rest) := by
  induction rest generalizing pre with
  | nil => rw [List.append_nil]
  | cons c rest ih =>
    rw [List.append_cons]
    refine List.IsPrefix.trans ?_ (ih (pre ++ [c]))
    rw [brackets_append_singleton]
    exact List.prefix_append _ _

/-- Where a bracket stands, the brackets of a text fall apart. -/
theorem exists_brackets_eq (rest : List Char) (hc : c = '(' ∨ c = ')')
    (hcomment : Verdict.hasComment pre = false) :
    ∃ after, brackets (pre ++ c :: rest) = brackets pre ++ (utf8Length pre, c) :: after := by
  obtain ⟨after, h⟩ := brackets_isPrefix (pre ++ [c]) rest
  refine ⟨after, ?_⟩
  rw [List.append_cons, ← h, brackets_append_paren hc hcomment, List.append_assoc,
    List.singleton_append]

end Offsets

/-! ## What is still open -/

section StillOpen

variable {bs before after m : List (Nat × Char)} {st : List Nat} {i : Nat}

theorem stillOpen_append (st : List Nat) (bs ds : List (Nat × Char)) :
    stillOpen st (bs ++ ds) = stillOpen (stillOpen st bs) ds := by
  induction bs generalizing st with
  | nil => rfl
  | cons b bs ih => exact ih _

theorem stillOpen_openParen (st : List Nat) (i : Nat) (bs : List (Nat × Char)) :
    stillOpen st ((i, '(') :: bs) = stillOpen (i :: st) bs := rfl

theorem stillOpen_closeParen (st : List Nat) (j : Nat) (bs : List (Nat × Char)) :
    stillOpen st ((j, ')') :: bs) = stillOpen st.tail bs := rfl

theorem Nested.append (h : Nested bs) (h' : Nested m) : Nested (bs ++ m) := by
  induction h with
  | nil => exact h'
  | pair hinner _ _ ih =>
    rw [List.append_assoc, List.cons_append]
    exact .pair hinner ih

theorem Nested.stillOpen_eq (h : Nested m) (st : List Nat) : stillOpen st m = st := by
  induction h generalizing st with
  | nil => rfl
  | @pair opened closed inner rest _ _ ihInner ihRest =>
    rw [stillOpen_append, stillOpen_closeParen, stillOpen_openParen, ihInner, List.tail_cons,
      ihRest]

/-- After nested brackets, a close bracket closes one from before them. -/
theorem Nested.not_append_closeParen {j : Nat} (h : Nested m) : ¬Nested (m ++ (j, ')') :: bs) := by
  intro h'
  have hopen (i : Nat) : stillOpen [] bs = [i] := by
    rw [← h'.stillOpen_eq [i], stillOpen_append, h.stillOpen_eq, stillOpen_closeParen,
      List.tail_cons]
  exact absurd ((hopen 0).symm.trans (hopen 1)) (by decide)

/-- What is open was open before or has been opened since. -/
theorem mem_of_mem_stillOpen (h : i ∈ stillOpen st bs) : i ∈ st ∨ (i, '(') ∈ bs := by
  induction bs generalizing st with
  | nil => exact .inl h
  | cons b bs ih =>
    obtain ⟨offset, c⟩ := b
    obtain h | h := ih h
    · split at h
      · rename_i hc
        obtain rfl | h := List.mem_cons.1 h
        · exact .inr (hc ▸ List.mem_cons_self)
        · exact .inl h
      · exact .inl (List.mem_of_mem_tail h)
    · exact .inr (List.mem_cons_of_mem _ h)

/-- What comes after the bracket that was opened last is nested. -/
theorem exists_of_stillOpen_eq_cons (hbs : ∀ b ∈ bs, b.2 = '(' ∨ b.2 = ')')
    (h : stillOpen [] bs = i :: st) :
    ∃ before m, bs = before ++ (i, '(') :: m ∧ Nested m ∧ stillOpen [] before = st := by
  induction hlength : bs.length using Nat.strong_induction_on generalizing bs i st with
  | _ n ih =>
    rcases List.eq_nil_or_concat bs with rfl | ⟨bs, ⟨offset, c⟩, rfl⟩
    · cases h
    rw [List.concat_eq_append] at hbs hlength h ⊢
    rw [List.length_append, List.length_singleton] at hlength
    obtain ⟨hinit, hc⟩ := List.forall_mem_append.1 hbs
    rw [stillOpen_append] at h
    obtain rfl | rfl : c = '(' ∨ c = ')' := hc _ (List.mem_singleton_self _)
    · rw [stillOpen_openParen, stillOpen] at h
      cases h
      exact ⟨bs, [], rfl, .nil, rfl⟩
    · -- The bracket closes the one opened last, in front of which the next one is the last.
      rw [stillOpen_closeParen, stillOpen] at h
      cases hopen : stillOpen [] bs with
      | nil =>
        rw [hopen] at h
        cases h
      | cons k st' =>
        rw [hopen, List.tail_cons] at h
        obtain ⟨before, m, rfl, hm, hbefore⟩ := ih bs.length (by omega) hinit hopen rfl
        rw [List.length_append, List.length_cons] at hlength
        obtain ⟨before, m', rfl, hm', hst⟩ := ih before.length (by omega)
          (fun b hb => hinit b (List.mem_append_left _ hb)) (hbefore.trans h) rfl
        refine ⟨before, m' ++ ((k, '(') :: m ++ [(offset, ')')]), ?_, ?_, hst⟩
        · simp only [List.append_assoc, List.cons_append]
        · exact hm'.append (.pair hm .nil)

end StillOpen

/-! ## Pairs -/

section Pairs

variable {cs pre rest : List Char} {i i' j j' k : Nat}

theorem isParen_of_mem_brackets {b : Nat × Char} (h : b ∈ brackets cs) : b.2 = '(' ∨ b.2 = ')' := by
  obtain ⟨-, -, -, -, hc, -⟩ := mem_brackets_iff.1 h
  exact hc

/-- A text falls apart at a bracket in one way only. -/
theorem brackets_split_unique {before before' after after' : List (Nat × Char)} {c c' : Char}
    (h : brackets cs = before ++ (i, c) :: after)
    (h' : brackets cs = before' ++ (i, c') :: after') :
    before = before' ∧ c = c' ∧ after = after' := by
  have hnodup := nodup_brackets cs
  rw [h, List.map_append, List.map_cons, List.nodup_middle, List.nodup_cons,
    List.mem_append] at hnodup
  have hmap := congrArg (List.map (·.1)) (h.symm.trans h')
  rw [List.map_append, List.map_cons, List.map_append, List.map_cons] at hmap
  obtain ⟨hbefore, -, -⟩ := (List.append_cons_inj_of_notMem (fun h => hnodup.1 (.inl h))
    (fun h => hnodup.1 (.inr h))).1 hmap
  have hlength : before.length = before'.length := by
    simpa using congrArg List.length hbefore
  obtain ⟨rfl, hrest⟩ := List.append_inj (h.symm.trans h') hlength
  cases hrest
  exact ⟨rfl, rfl, rfl⟩

/-- A bracket closes the one opened last of those that are open before it. -/
theorem paired_iff : Paired cs i j ↔ ∃ before after,
    brackets cs = before ++ (j, ')') :: after ∧ (stillOpen [] before).head? = some i := by
  constructor
  · rintro ⟨before, inner, after, hinner, h⟩
    refine ⟨_, after, h, ?_⟩
    rw [stillOpen_append, stillOpen_openParen, hinner.stillOpen_eq, List.head?_cons]
  · rintro ⟨before, after, h, hi⟩
    obtain ⟨st, hst⟩ := List.head?_eq_some_iff.1 hi
    have hmem : ∀ b ∈ before, b ∈ brackets cs := fun b hb => h ▸ List.mem_append_left _ hb
    have hbefore : ∀ b ∈ before, b.2 = '(' ∨ b.2 = ')' := fun b hb =>
      isParen_of_mem_brackets (hmem b hb)
    obtain ⟨before, inner, rfl, hinner, -⟩ := exists_of_stillOpen_eq_cons hbefore hst
    exact ⟨before, inner, after, hinner, h⟩

instance (cs : List Char) (i j : Nat) : Decidable (Paired cs i j) :=
  decidable_of_iff (∃ k < (brackets cs).length, (brackets cs)[k]? = some (j, ')') ∧
    (stillOpen [] ((brackets cs).take k)).head? = some i) <| by
  rw [paired_iff]
  constructor
  · rintro ⟨k, hk, hj, hi⟩
    obtain ⟨_, hj⟩ := List.getElem?_eq_some_iff.1 hj
    refine ⟨_, (brackets cs).drop (k + 1), ?_, hi⟩
    rw [← hj, List.getElem_cons_drop, List.take_append_drop]
  · rintro ⟨before, after, h, hi⟩
    rw [h]
    exact ⟨before.length, by simp, by simp, by simpa using hi⟩

/-- The same about the bracket at which a text goes on. -/
theorem paired_closeParen_iff (hcomment : Verdict.hasComment pre = false) :
    Paired (pre ++ ')' :: rest) i (utf8Length pre) ↔
      (stillOpen [] (brackets pre)).head? = some i := by
  obtain ⟨after, hsplit⟩ := exists_brackets_eq rest (.inr rfl) hcomment
  rw [paired_iff]
  constructor
  · rintro ⟨before, after', h, hi⟩
    obtain ⟨rfl, -, -⟩ := brackets_split_unique hsplit h
    exact hi
  · exact fun hi => ⟨_, after, hsplit, hi⟩

theorem Paired.mem_opened (h : Paired cs i j) : (i, '(') ∈ brackets cs := by
  obtain ⟨before, inner, after, -, h⟩ := h
  simp [h]

theorem Paired.mem_closed (h : Paired cs i j) : (j, ')') ∈ brackets cs := by
  obtain ⟨before, inner, after, -, h⟩ := h
  simp [h]

theorem Paired.unique_opened (h : Paired cs i j) (h' : Paired cs i' j) : i = i' := by
  obtain ⟨before, after, hsplit, hi⟩ := paired_iff.1 h
  obtain ⟨before', after', hsplit', hi'⟩ := paired_iff.1 h'
  obtain ⟨rfl, -, -⟩ := brackets_split_unique hsplit hsplit'
  exact Option.some.inj (hi.symm.trans hi')

/-- What is closed is not open any more. -/
theorem Paired.notMem_stillOpen (h : Paired cs i j) : i ∉ stillOpen [] (brackets cs) := by
  obtain ⟨before, inner, after, hinner, h⟩ := h
  have hnodup := nodup_brackets cs
  rw [h, List.append_assoc, List.cons_append, List.map_append, List.map_cons, List.nodup_middle,
    List.nodup_cons, List.mem_append] at hnodup
  rw [h, stillOpen_append, stillOpen_append, stillOpen_openParen, hinner.stillOpen_eq,
    stillOpen_closeParen, List.tail_cons]
  intro hi
  refine hnodup.1 ?_
  obtain hi | hi := mem_of_mem_stillOpen hi
  · obtain hi | hi := mem_of_mem_stillOpen hi
    · cases hi
    · exact .inl (List.mem_map_of_mem hi)
  · have hmem : (i, '(') ∈ inner ++ (j, ')') :: after :=
      List.mem_append_right _ (List.mem_cons_of_mem _ hi)
    exact .inr (List.mem_map_of_mem hmem)

theorem Paired.unique_closed (h : Paired cs i j) (h' : Paired cs i j') : j = j' := by
  obtain ⟨before, inner, after, hinner, h⟩ := h
  obtain ⟨before', inner', after', hinner', h'⟩ := h'
  rw [List.append_assoc] at h h'
  obtain ⟨-, -, heq⟩ := brackets_split_unique h h'
  obtain ⟨ds, rfl, hsplit⟩ | ⟨ds, rfl, hsplit⟩ := List.append_eq_append_iff.1 heq
  · cases ds with
    | nil =>
      cases hsplit
      rfl
    | cons d ds =>
      cases hsplit
      exact absurd hinner' hinner.not_append_closeParen
  · cases ds with
    | nil =>
      cases hsplit
      rfl
    | cons d ds =>
      cases hsplit
      exact absurd hinner hinner'.not_append_closeParen

/-- No bracket belongs to two pairs. -/
theorem Paired.unique {offset : Nat} (h : Paired cs i j) (h' : Paired cs i' j')
    (hoffset : offset = i ∨ offset = j) (hoffset' : offset = i' ∨ offset = j') :
    i = i' ∧ j = j' := by
  obtain rfl | rfl := hoffset <;> obtain rfl | rfl := hoffset'
  · exact ⟨rfl, h.unique_closed h'⟩
  · exact absurd (char_unique h.mem_opened (List.mem_of_mem_filter h'.mem_closed)) (by decide)
  · exact absurd (char_unique h'.mem_opened (List.mem_of_mem_filter h.mem_closed)) (by decide)
  · exact ⟨h.unique_opened h', rfl⟩

end Pairs

end SmallScheme.Console
