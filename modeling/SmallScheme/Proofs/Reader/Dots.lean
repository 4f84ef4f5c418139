import SmallScheme.Proofs.Reader.Grammar

/-!
# Where dots end up

A dot stands before the last item of a list, and makes that item the tail. It is
the first dot that is judged: if it stands where it may, only one item follows
it, so all others are in order but for that one. This item may be a dot itself,
and then the tail is the symbol that a dot is read as.

So a datum that is read has no dot among its elements, and one for a tail only
where the text has two dots in succession (`dots_of_parse`).
-/

namespace SmallScheme

namespace Datum

/-- What a datum is made of, itself included. -/
inductive Part : Datum → Datum → Prop
  | self (d : Datum) : Part d d
  | car {first second d : Datum} : Part first d → Part (pair first second) d
  | cdr {first second d : Datum} : Part second d → Part (pair first second) d

/-- A pair in a chain is a link of it, or in one of its elements, or in its tail. -/
theorem Part.of_chain {items : List Datum} {tail first second : Datum}
    (h : (chain items tail).Part (pair first second)) :
    (∃ front back, items = front ++ first :: back ∧ second = chain back tail) ∨
      (∃ item ∈ items, item.Part (pair first second)) ∨ tail.Part (pair first second) := by
  induction items with
  | nil => exact .inr (.inr h)
  | cons item items ih =>
    cases h with
    | self => exact .inl ⟨[], items, rfl, rfl⟩
    | car h => exact .inr (.inl ⟨item, List.mem_cons_self, h⟩)
    | cdr h =>
      obtain ⟨front, back, rfl, hsecond⟩ | ⟨item', hmem, h⟩ | h := ih h
      · exact .inl ⟨item :: front, back, rfl, hsecond⟩
      · exact .inr (.inl ⟨item', List.mem_cons_of_mem _ hmem, h⟩)
      · exact .inr (.inr h)

/-- Elements and tail of a chain are parts of it. -/
theorem part_chain_of_mem {items : List Datum} {item d : Datum} (tail : Datum)
    (hmem : item ∈ items) (h : item.Part d) : (chain items tail).Part d := by
  induction items with
  | nil => cases hmem
  | cons first items ih =>
    rcases List.mem_cons.1 hmem with rfl | hmem
    · exact .car h
    · exact .cdr (ih hmem)

theorem part_chain_tail {tail d : Datum} (items : List Datum) (h : tail.Part d) :
    (chain items tail).Part d := by
  induction items with
  | nil => exact h
  | cons item items ih => exact .cdr ih

theorem part_chain_last {front : List Datum} {last tail : Datum} :
    (chain (front ++ [last]) tail).Part (pair last tail) := by
  induction front with
  | nil => exact .self _
  | cons item front ih => exact .cdr ih

theorem chain_eq_dot_iff {items : List Datum} {tail : Datum} :
    chain items tail = dot ↔ items = [] ∧ tail = dot := by
  cases items with
  | nil => simp [chain]
  | cons item items => simp [chain, dot]

/-- Among the items that a list is made of, from a position on, only the last but one
    is a dot, unless the last two are dots both. -/
theorem forall_dot_iff_of_ofItems {items : List (Datum × Span)} {pos : Nat} {d : Datum}
    (h : ofItems items pos = .ok d) :
    (∀ i span, pos ≤ i → items[i]? = some (dot, span) → i + 2 = items.length) ↔
      ∀ front span span', items.drop pos ≠ front ++ [(dot, span), (dot, span')] := by
  constructor
  · intro hplace front span span' hdrop
    have hlast : items[pos + (front.length + 1)]? = some (dot, span') := by
      rw [← List.getElem?_drop, hdrop]
      simp
    have hlength := hplace _ _ (Nat.le_add_right ..) hlast
    have hdrop := congrArg List.length hdrop
    simp only [List.length_drop, List.length_append, List.length_cons, List.length_nil] at hdrop
    omega
  · intro hlast i span hpos hi
    obtain ⟨j, rfl⟩ := Nat.exists_eq_add_of_le hpos
    rw [← List.getElem?_drop] at hi
    obtain ⟨hne, -⟩ | ⟨front, ⟨mark, span'⟩, ⟨last, span''⟩, hdrop, rfl, -, hne, -⟩ :=
      of_ofItems_drop h
    · exact absurd rfl (hne _ (List.mem_of_getElem? hi))
    have hlength := congrArg List.length hdrop
    simp only [List.length_drop, List.length_append, List.length_cons, List.length_nil] at hlength
    rw [hdrop] at hi
    -- No item of the front is a dot, the next one is, and the last one would be the second.
    have hge : front.length ≤ j := by
      by_contra hlt
      rw [List.getElem?_append_left (Nat.lt_of_not_le hlt)] at hi
      exact hne _ (List.mem_of_getElem? hi) rfl
    obtain ⟨k, rfl⟩ := Nat.exists_eq_add_of_le hge
    rw [List.getElem?_append_right hge, Nat.add_sub_cancel_left] at hi
    match k, hi with
    | 0, _ => omega
    | 1, hi =>
      obtain ⟨rfl, -⟩ : last = dot ∧ span'' = span := by simpa using hi
      exact absurd hdrop (hlast front span' span'')

end Datum

/-! ## Dots in succession -/

/-- No two dots follow each other. -/
def DotsApart (ks : List TokenKind) : Prop := ks.IsChain fun k k' => ¬(k = .dot ∧ k' = .dot)

theorem dotsApart_iff_not_infix {ks : List TokenKind} :
    DotsApart ks ↔ ¬ [.dot, .dot] <:+: ks := by
  rw [DotsApart, List.isChain_iff_forall_rel_of_append_cons_cons]
  constructor
  · rintro h ⟨front, back, rfl⟩
    exact @h .dot .dot front back (by simp) ⟨rfl, rfl⟩
  · rintro h _ _ front back rfl ⟨rfl, rfl⟩
    exact h ⟨front, back, by simp⟩

namespace Writes

variable {ks : List TokenKind} {d : Datum}

theorem ne_nil (h : Writes ks d) : ks ≠ [] := by cases h <;> simp

/-- Only a bare dot begins with a dot. -/
theorem eq_dot_of_head? (h : Writes ks d) (hhead : ks.head? = some .dot) : ks = [.dot] := by
  cases h with
  | integer | symbol => cases hhead
  | dot => rfl
  | list => cases hhead

/-- Only a bare dot ends in a dot. -/
theorem eq_dot_of_getLast? (h : Writes ks d) (hlast : ks.getLast? = some .dot) : ks = [.dot] := by
  cases h with
  | integer | symbol => cases hlast
  | dot => rfl
  | list =>
    rw [List.getLast?_append] at hlast
    cases hlast

end Writes

/-- Between the brackets of a list, dots are apart if they are so in each item and
    no two items in succession are bare dots. -/
theorem dotsApart_list_iff {items : List Item} (h : ∀ item ∈ items, Writes item.1 item.2) :
    DotsApart (.openParen :: items.flatMap (·.1) ++ [.closeParen]) ↔
      (∀ item ∈ items, DotsApart item.1) ∧
        items.IsChain fun item next => ¬(item.1 = [.dot] ∧ next.1 = [.dot]) := by
  have hbrackets : DotsApart (.openParen :: items.flatMap (·.1) ++ [.closeParen]) ↔
      DotsApart (items.flatMap (·.1)) := by
    simp [DotsApart, List.isChain_append, List.isChain_cons]
  have hne : [] ∉ items.map (·.1) := by
    intro hmem
    obtain ⟨item, hitem, hnil⟩ := List.mem_map.1 hmem
    exact (h item hitem).ne_nil hnil
  rw [hbrackets, DotsApart, List.flatMap_def, List.isChain_flatten hne, List.forall_mem_map,
    List.isChain_map]
  refine and_congr_right fun _ => ?_
  -- Where two items meet, there are two dots just if both items are dots.
  have hmeet : ∀ item next : Item, item ∈ items → next ∈ items →
      ((∀ k ∈ item.1.getLast?, ∀ k' ∈ next.1.head?, ¬(k = .dot ∧ k' = .dot)) ↔
        ¬(item.1 = [.dot] ∧ next.1 = [.dot])) := by
    intro item next hitem hnext
    constructor
    · rintro hne ⟨heq, heq'⟩
      exact hne .dot (by simp [heq]) .dot (by simp [heq']) ⟨rfl, rfl⟩
    · rintro hne _ hk _ hk' ⟨rfl, rfl⟩
      exact hne ⟨(h item hitem).eq_dot_of_getLast? hk, (h next hnext).eq_dot_of_head? hk'⟩
  exact List.IsChain.iff_of_mem_imp hmeet

namespace ListOf

variable {items : List Item} {d : Datum}

/-- No bare dot, no two of them in succession. -/
theorem isChain_of_forall_ne (h : ∀ item ∈ items, item.1 ≠ [.dot]) :
    items.IsChain fun item next => ¬(item.1 = [.dot] ∧ next.1 = [.dot]) :=
  List.isChain_iff_forall_rel_of_append_cons_cons.2 fun item _ _ _ heq hdots =>
    h item (by simp [heq]) hdots.1

/-- No element of a list is a dot. -/
theorem ne_dot_of_part (h : ListOf items d)
    (hdot : ∀ item ∈ items, item.1 = [.dot] ↔ item.2 = .dot)
    (hitems : ∀ item ∈ items, ∀ first second, item.2.Part (.pair first second) → first ≠ .dot)
    {first second : Datum} (hpart : d.Part (.pair first second)) : first ≠ .dot := by
  cases h with
  | proper hne =>
    obtain ⟨front, back, heq, -⟩ | ⟨_, hmem, hpart⟩ | hpart := hpart.of_chain
    · have hmem : first ∈ items.map (·.2) := by simp [heq]
      obtain ⟨item, hitem, rfl⟩ := List.mem_map.1 hmem
      exact fun h => hne item hitem ((hdot item hitem).2 h)
    · obtain ⟨item, hitem, rfl⟩ := List.mem_map.1 hmem
      exact hitems item hitem _ _ hpart
    · cases hpart
  | dotted front last heq hfront hne =>
    subst heq
    obtain ⟨_, _, heq, -⟩ | ⟨_, hmem, hpart⟩ | hpart := hpart.of_chain
    · have hmem : first ∈ front.map (·.2) := by simp [heq]
      obtain ⟨item, hitem, rfl⟩ := List.mem_map.1 hmem
      exact fun h => hne item hitem ((hdot item (List.mem_append_left _ hitem)).2 h)
    · obtain ⟨item, hitem, rfl⟩ := List.mem_map.1 hmem
      exact hitems item (List.mem_append_left _ hitem) _ _ hpart
    · exact hitems last (by simp) _ _ hpart

/-- A dot ends a chain in a list if it does so in an item, or if two dots stand in
    succession among the items. -/
theorem exists_part_dot_iff (h : ListOf items d)
    (hdot : ∀ item ∈ items, item.1 = [.dot] ↔ item.2 = .dot) :
    (∃ first, d.Part (.pair first .dot)) ↔
      (∃ item ∈ items, ∃ first, item.2.Part (.pair first .dot)) ∨
        ¬items.IsChain fun item next => ¬(item.1 = [.dot] ∧ next.1 = [.dot]) := by
  cases h with
  | proper hne =>
    constructor
    · rintro ⟨first, hpart⟩
      obtain ⟨_, _, -, htail⟩ | ⟨_, hmem, hpart⟩ | hpart := hpart.of_chain
      · exact absurd (Datum.chain_eq_dot_iff.1 htail.symm).2 (by decide)
      · obtain ⟨item, hitem, rfl⟩ := List.mem_map.1 hmem
        exact .inl ⟨item, hitem, first, hpart⟩
      · cases hpart
    · rintro (⟨item, hitem, first, hpart⟩ | hdots)
      · exact ⟨first, Datum.part_chain_of_mem _ (List.mem_map_of_mem hitem) hpart⟩
      · exact absurd (isChain_of_forall_ne hne) hdots
  | dotted front last heq hfront hne =>
    subst heq
    have hlast := hdot last (by simp)
    constructor
    · rintro ⟨first, hpart⟩
      obtain ⟨_, back, -, htail⟩ | ⟨_, hmem, hpart⟩ | hpart := hpart.of_chain
      · -- The last link of the chain, to a dot: this is the item after the first dot.
        have hbare := hlast.2 (Datum.chain_eq_dot_iff.1 htail.symm).2
        exact .inr fun hchain => (List.isChain_append_cons_cons.1 hchain).2.1 ⟨rfl, hbare⟩
      · obtain ⟨item, hitem, rfl⟩ := List.mem_map.1 hmem
        exact .inl ⟨item, List.mem_append_left _ hitem, first, hpart⟩
      · exact .inl ⟨last, by simp, first, hpart⟩
    · rintro (⟨item, hitem, first, hpart⟩ | hdots)
      · rcases List.mem_append.1 hitem with hitem | hitem
        · exact ⟨first, Datum.part_chain_of_mem _ (List.mem_map_of_mem hitem) hpart⟩
        · obtain rfl | rfl : item = ([.dot], .dot) ∨ item = last := by simpa using hitem
          · cases hpart
          · exact ⟨first, Datum.part_chain_tail _ hpart⟩
      · -- Before the last item there is one dot only, so the last item is the other.
        have hbare : last.1 = [.dot] := by
          by_contra hbare
          refine hdots (List.isChain_append_cons_cons.2 ⟨?_, fun h => hbare h.2, .singleton _⟩)
          refine List.isChain_append.2 ⟨isChain_of_forall_ne hne, .singleton _, ?_⟩
          exact fun item hitem _ _ h => hne item (List.mem_of_getLast? hitem) h.1
        obtain ⟨init, item, rfl⟩ := (List.eq_nil_or_concat front).resolve_left hfront
        refine ⟨item.2, ?_⟩
        rw [hlast.1 hbare, List.concat_eq_append, List.map_append]
        exact Datum.part_chain_last

end ListOf

namespace Writes

variable {ks : List TokenKind} {d : Datum}

theorem ne_dot_of_part (h : Writes ks d) (hks : .symbol "." ∉ ks) {first second : Datum}
    (hpart : d.Part (.pair first second)) : first ≠ .dot := by
  induction h generalizing first second with
  | integer | symbol | dot => cases hpart
  | @list items d hitems hlist ih =>
    have hplain : .symbol "." ∉ items.flatMap (·.1) := fun hmem =>
      hks (List.mem_cons_of_mem _ (List.mem_append_left _ hmem))
    refine hlist.ne_dot_of_part (dot_iff_of_writes hitems hplain) (fun item hitem _ _ => ?_) hpart
    exact ih item hitem fun hmem => hplain (List.mem_flatMap.2 ⟨item, hitem, hmem⟩)

theorem exists_part_dot_iff (h : Writes ks d) (hks : .symbol "." ∉ ks) :
    (∃ first, d.Part (.pair first .dot)) ↔ ¬DotsApart ks := by
  induction h with
  | integer | symbol | dot =>
    refine iff_of_false (fun ⟨_, hpart⟩ => nomatch hpart) (not_not.2 (.singleton _))
  | @list items d hitems hlist ih =>
    have hplain : .symbol "." ∉ items.flatMap (·.1) := fun hmem =>
      hks (List.mem_cons_of_mem _ (List.mem_append_left _ hmem))
    have ih : ∀ item ∈ items,
        (∃ first, item.2.Part (.pair first .dot)) ↔ ¬DotsApart item.1 := fun item hitem =>
      ih item hitem fun hmem => hplain (List.mem_flatMap.2 ⟨item, hitem, hmem⟩)
    rw [hlist.exists_part_dot_iff (dot_iff_of_writes hitems hplain), dotsApart_list_iff hitems,
      not_and_or]
    refine or_congr_left ?_
    simp only [not_forall, exists_prop]
    exact exists_congr fun item => and_congr_right (ih item)

end Writes

/-- Of the items that a list is made of, from any position on, only the last but one
    is a dot, just if the last two are not dots both. So in a datum that is read, no
    element is a dot; the datum itself is one for the text of a dot alone; and a tail is
    one just where the text has two dots in succession. -/
theorem dots_of_parse (items : List (Datum × Span)) (pos : Nat) (text : String) :
    (∀ d, Datum.ofItems items pos = .ok d →
      ((∀ i span, pos ≤ i → items[i]? = some (.dot, span) → i + 2 = items.length) ↔
        ∀ front span span', items.drop pos ≠ front ++ [(.dot, span), (.dot, span')])) ∧
    ∀ d, Datum.parse text = .ok d → ∃ ts, tokenize text = .ok ts ∧
      (d = .dot ↔ ts.map Token.kind = [.dot]) ∧
      (∀ first second, d.Part (.pair first second) → first ≠ .dot) ∧
      ((∃ first, d.Part (.pair first .dot)) ↔ [.dot, .dot] <:+: ts.map Token.kind) := by
  refine ⟨fun d => Datum.forall_dot_iff_of_ofItems, fun d h => ?_⟩
  obtain ⟨ts, hts, hfeed⟩ := Datum.parse_eq_ok_iff.1 h
  have hplain := dot_not_mem_of_tokenize hts
  have hwrites : Writes (ts.map Token.kind) d := writes_of_feed .nil hplain hfeed
  refine ⟨ts, hts, (hwrites.eq_dot_iff hplain).symm,
    fun first second => hwrites.ne_dot_of_part hplain, ?_⟩
  rw [hwrites.exists_part_dot_iff hplain, dotsApart_iff_not_infix, not_not]

/-- In `(a . b)` the dot stands before the last item, and in the datum that is read
    there is none. -/
theorem dots_of_parse_dotted :
    Datum.ofItems [(.symbol "a", ⟨1, 2⟩), (.dot, ⟨3, 4⟩), (.symbol "b", ⟨5, 6⟩)] 0 =
        .ok (.pair (.symbol "a") (.symbol "b")) ∧
      (∀ i span, [(Datum.symbol "a", Span.mk 1 2), (.dot, ⟨3, 4⟩), (.symbol "b", ⟨5, 6⟩)][i]? =
        some (.dot, span) → i + 2 = 3) ∧
      Datum.parse "(a . b)" = .ok (.pair (.symbol "a") (.symbol "b")) ∧
      ∀ first second, (Datum.pair (.symbol "a") (.symbol "b")).Part (.pair first second) →
        first ≠ .dot ∧ second ≠ .dot := by
  obtain ⟨hitems, htext⟩ := dots_of_parse
    [(.symbol "a", ⟨1, 2⟩), (.dot, ⟨3, 4⟩), (.symbol "b", ⟨5, 6⟩)] 0 "(a . b)"
  have hparse : Datum.parse "(a . b)" = .ok (.pair (.symbol "a") (.symbol "b")) := by cbv
  have hkinds : tokenize "(a . b)" = .ok [⟨.openParen, ⟨0, 1⟩⟩, ⟨.symbol "a", ⟨1, 2⟩⟩,
      ⟨.dot, ⟨3, 4⟩⟩, ⟨.symbol "b", ⟨5, 6⟩⟩, ⟨.closeParen, ⟨6, 7⟩⟩] := by cbv
  obtain ⟨ts, hts, -, hfirst, hsecond⟩ := htext _ hparse
  cases hkinds.symm.trans hts
  refine ⟨rfl, fun i span => (hitems _ rfl).2 ?_ i span (Nat.zero_le i), hparse,
    fun first second hpart => ⟨hfirst _ _ hpart, ?_⟩⟩
  · intro front span span' heq
    obtain ⟨hlast, -⟩ : Datum.symbol "b" = .dot ∧ Span.mk 5 6 = span' := by
      simpa using congrArg List.getLast? heq
    exact absurd hlast (by decide)
  · rintro rfl
    exact absurd (hsecond.1 ⟨first, hpart⟩) (by decide)

/-- So a dot may stand elsewhere than before the last item, and be the second
    component of a pair that is read. -/
theorem exists_dot_in_last_place :
    (¬ ∀ items pos d, Datum.ofItems items pos = .ok d → ∀ i span, pos ≤ i →
      items[i]? = some (.dot, span) → i + 2 = items.length) ∧
    ¬ ∀ text d, Datum.parse text = .ok d → ∀ first second, d.Part (.pair first second) →
      first ≠ .dot ∧ second ≠ .dot := by
  constructor
  · intro h
    have hplace := h [(.symbol "a", ⟨1, 2⟩), (.dot, ⟨3, 4⟩), (.dot, ⟨5, 6⟩)] 0 _ rfl 2 ⟨5, 6⟩
      (Nat.zero_le _) rfl
    exact absurd hplace (by decide)
  · intro h
    have hparse : Datum.parse "(a . .)" = .ok (.pair (.symbol "a") .dot) := by cbv
    exact (h _ _ hparse _ _ (.self _)).2 rfl

end SmallScheme
