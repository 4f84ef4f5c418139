import SmallScheme.Proofs.Reader.Feed

/-!
# The grammar of data

Which tokens write which datum (`Writes`): an integer, a symbol or a dot writes
itself, and a pair of brackets around items the list of these, where a dot is
judged by its place among the items (`ListOf`).

The reader accepts just that. What a list of tokens writes is delivered to the
list that is innermost, whatever stands around it (`Writes.feed`); and at any
time the tokens read so far are open brackets with items after them, as the open
lists hold them (`Opens`), so that what is delivered has been written
(`writes_of_feed`).
-/

namespace SmallScheme

/-- The tokens of an item of a list, and its datum. -/
abbrev Item := List TokenKind × Datum

/-- The list that the items between two brackets make. -/
inductive ListOf (items : List Item) : Datum → Prop
  /-- Without a bare dot: a proper list. -/
  | proper : (∀ item ∈ items, item.1 ≠ [.dot]) →
      ListOf items (.chain (items.map (·.2)) .nil)
  /-- The first bare dot is not the first item, and one item follows it: this is
      the tail of what stands before the dot. -/
  | dotted (front : List Item) (last : Item) : items = front ++ [([.dot], .dot), last] →
      front ≠ [] → (∀ item ∈ front, item.1 ≠ [.dot]) →
      ListOf items (.chain (front.map (·.2)) last.2)

/-- The tokens write the datum. -/
inductive Writes : List TokenKind → Datum → Prop
  | integer (n : Fixnum) : Writes [.integer n] (.integer n)
  | symbol (name : String) : Writes [.symbol name] (.symbol name)
  | dot : Writes [.dot] .dot
  | list {items : List Item} {d : Datum} : (∀ item ∈ items, Writes item.1 item.2) →
      ListOf items d → Writes (.openParen :: items.flatMap (·.1) ++ [.closeParen]) d

/-! ## Dots -/

theorem Datum.chain_ne_dot {items : List Datum} {tail : Datum} (h : tail ≠ .dot ∨ items ≠ []) :
    chain items tail ≠ .dot := by
  cases items with
  | nil => exact h.resolve_right fun hne => hne rfl
  | cons d items => exact fun h => by cases h

theorem ListOf.ne_dot {items : List Item} {d : Datum} (h : ListOf items d) : d ≠ .dot := by
  cases h with
  | proper => exact Datum.chain_ne_dot (.inl (by decide))
  | dotted _ _ _ hfront => exact Datum.chain_ne_dot (.inr (by simpa using hfront))

/-- Only a dot is read as a dot, as no symbol is written like one. -/
theorem Writes.eq_dot_iff {ks : List TokenKind} {d : Datum} (h : Writes ks d)
    (hks : .symbol "." ∉ ks) : ks = [.dot] ↔ d = .dot := by
  cases h with
  | integer n => simp [Datum.dot]
  | symbol name =>
    have hname : name ≠ "." := fun h => hks (h ▸ List.mem_cons_self)
    simp [Datum.dot, hname]
  | dot => simp
  | list _ hlist => simp [hlist.ne_dot]

/-! ## Lists -/

namespace Datum

variable {ds front : List (Datum × Span)} {mark last : Datum × Span}

theorem ofItems_of_forall_ne_dot (h : ∀ x ∈ ds, x.1 ≠ dot) :
    ofItems ds 0 = .ok (chain (ds.map (·.1)) nil) := by
  have hspan : ds.span (fun x => x.1 != dot) = (ds, []) := by
    rw [List.span_eq_takeWhile_dropWhile, List.takeWhile_eq_self_iff.2 (by simpa using h),
      List.dropWhile_eq_nil_iff.2 (by simpa using h)]
  rw [ofItems, List.drop_zero, hspan]

theorem span_append_cons (h : ∀ x ∈ front, x.1 ≠ dot) (hmark : mark.1 = dot)
    (back : List (Datum × Span)) :
    (front ++ mark :: back).span (fun x => x.1 != dot) = (front, mark :: back) := by
  have hfront : ∀ x ∈ front, (x.1 != dot) = true := by simpa using h
  rw [List.span_eq_takeWhile_dropWhile, List.takeWhile_append_of_pos hfront,
    List.dropWhile_append_of_pos hfront]
  simp [hmark]

theorem ofItems_dotted (hne : front ≠ []) (h : ∀ x ∈ front, x.1 ≠ dot) (hmark : mark.1 = dot) :
    ofItems (front ++ [mark, last]) 0 = .ok (chain (front.map (·.1)) last.1) := by
  rw [ofItems, List.drop_zero, span_append_cons h hmark]
  simp [hne]

/-- What is made of items from a position on, where a list can be made of them. -/
theorem of_ofItems_drop {pos : Nat} {d : Datum} (h : ofItems ds pos = .ok d) :
    (∀ x ∈ ds.drop pos, x.1 ≠ dot) ∧ d = chain ((ds.drop pos).map (·.1)) nil ∨
      ∃ front mark last, ds.drop pos = front ++ [mark, last] ∧ mark.1 = dot ∧
        pos + front.length ≠ 0 ∧ (∀ x ∈ front, x.1 ≠ dot) ∧
        d = chain (front.map (·.1)) last.1 := by
  have hsplit := List.takeWhile_append_dropWhile (p := fun x : Datum × Span => x.1 != dot)
    (l := ds.drop pos)
  have hfront : ∀ x ∈ (ds.drop pos).takeWhile (fun x => x.1 != dot), x.1 ≠ dot := by
    intro x hx
    simpa using List.mem_takeWhile_imp hx
  rw [ofItems, List.span_eq_takeWhile_dropWhile] at h
  generalize (ds.drop pos).takeWhile (fun x => x.1 != dot) = front at hsplit hfront h
  rcases hback : (ds.drop pos).dropWhile (fun x => x.1 != dot) with
    _ | ⟨mark, _ | ⟨last, _ | ⟨_, _⟩⟩⟩ <;> rw [hback] at hsplit h
  · rw [List.append_nil] at hsplit
    rw [← hsplit]
    cases h
    exact .inl ⟨hfront, rfl⟩
  · cases h
  · -- What ends the front is a dot.
    have hmark : mark.1 = dot := by
      have := List.head?_dropWhile_not (fun x : Datum × Span => x.1 != dot) (ds.drop pos)
      rw [hback] at this
      simpa using this
    by_cases hzero : pos + front.length = 0
    · simp [hzero] at h
    · simp only [if_neg hzero] at h
      exact .inr ⟨front, mark, last, hsplit.symm, hmark, hzero, hfront, (Except.ok.inj h).symm⟩
  · cases h

/-- What is made of all items. -/
theorem of_ofItems_eq_ok {d : Datum} (h : ofItems ds 0 = .ok d) :
    (∀ x ∈ ds, x.1 ≠ dot) ∧ d = chain (ds.map (·.1)) nil ∨
      ∃ front mark last, ds = front ++ [mark, last] ∧ mark.1 = dot ∧ front ≠ [] ∧
        (∀ x ∈ front, x.1 ≠ dot) ∧ d = chain (front.map (·.1)) last.1 := by
  simpa using of_ofItems_drop h

end Datum

section Items

variable {items : List Item} {ds : List (Datum × Span)}
  (hds : ds.map (·.1) = items.map (·.2)) (hdot : ∀ item ∈ items, item.1 = [.dot] ↔ item.2 = .dot)

include hds hdot

theorem forall_ne_dot_iff : (∀ x ∈ ds, x.1 ≠ .dot) ↔ ∀ item ∈ items, item.1 ≠ [.dot] := by
  calc (∀ x ∈ ds, x.1 ≠ .dot)
    _ ↔ ∀ d ∈ ds.map (·.1), d ≠ .dot := by rw [List.forall_mem_map]
    _ ↔ ∀ item ∈ items, item.2 ≠ .dot := by rw [hds, List.forall_mem_map]
    _ ↔ ∀ item ∈ items, item.1 ≠ [.dot] :=
      forall₂_congr fun item hitem => not_congr (hdot item hitem).symm

/-- `Datum.ofItems` makes the list of the items, whatever their spans. -/
theorem ofItems_eq_ok_iff {d : Datum} : Datum.ofItems ds 0 = .ok d ↔ ListOf items d := by
  constructor
  · intro h
    obtain ⟨hne, rfl⟩ | ⟨front, mark, last, rfl, hmark, hfront, hne, rfl⟩ :=
      Datum.of_ofItems_eq_ok h
    · rw [hds]
      exact .proper ((forall_ne_dot_iff hds hdot).1 hne)
    · rw [List.map_append] at hds
      obtain ⟨front', back, rfl, hfront', hback⟩ := List.append_eq_map_iff.1 hds
      obtain ⟨⟨tokens, d⟩, _, rfl, hd, hrest⟩ := List.map_eq_cons_iff.1 hback
      obtain ⟨last', _, rfl, hlast, hrest⟩ := List.map_eq_cons_iff.1 hrest
      obtain rfl := List.map_eq_nil_iff.1 hrest
      -- The item in the place of the mark is a bare dot.
      obtain rfl : d = .dot := hd.trans hmark
      obtain rfl : tokens = [.dot] := (hdot (tokens, .dot) (by simp)).2 rfl
      rw [← hfront', ← show last'.2 = last.1 from hlast]
      refine .dotted _ _ rfl (fun hnil => hfront ?_) ?_
      · rwa [hnil, List.map_nil, eq_comm, List.map_eq_nil_iff] at hfront'
      · refine (forall_ne_dot_iff hfront'.symm fun item hitem => ?_).1 hne
        exact hdot item (List.mem_append_left _ hitem)
  · intro h
    cases h with
    | proper hne =>
      rw [← hds]
      exact Datum.ofItems_of_forall_ne_dot ((forall_ne_dot_iff hds hdot).2 hne)
    | dotted front last heq hfront hne =>
      subst heq
      rw [List.map_append] at hds
      obtain ⟨front', back, rfl, hfront', hback⟩ := List.map_eq_append_iff.1 hds
      obtain ⟨mark, _, rfl, hmark, hrest⟩ := List.map_eq_cons_iff.1 hback
      obtain ⟨last', _, rfl, hlast, hrest⟩ := List.map_eq_cons_iff.1 hrest
      obtain rfl := List.map_eq_nil_iff.1 hrest
      rw [← hfront', ← show last'.1 = last.2 from hlast]
      refine Datum.ofItems_dotted (fun hnil => hfront ?_) ?_ hmark
      · rwa [hnil, List.map_nil, eq_comm, List.map_eq_nil_iff] at hfront'
      · refine (forall_ne_dot_iff hfront' fun item hitem => ?_).2 hne
        exact hdot item (List.mem_append_left _ hitem)

end Items

/-- Among tokens without a symbol written like a dot, those of the items are. -/
theorem dot_iff_of_writes {items : List Item} (h : ∀ item ∈ items, Writes item.1 item.2)
    (hks : .symbol "." ∉ items.flatMap (·.1)) :
    ∀ item ∈ items, item.1 = [.dot] ↔ item.2 = .dot := fun item hitem =>
  (h item hitem).eq_dot_iff fun hmem => hks (List.mem_flatMap.2 ⟨item, hitem, hmem⟩)

open TokenStream ReaderStep

/-! ## What is written is read -/

/-- Items are added to the innermost list one after another, if each of them is
    read. -/
theorem feed_items {items : List Item}
    (h : ∀ item ∈ items, ∀ ts : List Token, ts.map Token.kind = item.1 → ∀ stack rest,
      ∃ span, feed stack (ts ++ rest) = follow rest (deliver item.2 span stack))
    {ts : List Token} (hts : ts.map Token.kind = items.flatMap (·.1)) (bracket : Span)
    (before : List (Datum × Span)) (outer : List OpenList) (rest : List Token) :
    ∃ ds : List (Datum × Span), ds.map (·.1) = items.map (·.2) ∧
      feed (⟨bracket, before⟩ :: outer) (ts ++ rest) =
        feed (⟨bracket, ds.reverse ++ before⟩ :: outer) rest := by
  induction items generalizing ts before with
  | nil =>
    obtain rfl := List.map_eq_nil_iff.1 hts
    exact ⟨[], rfl, rfl⟩
  | cons item items ih =>
    obtain ⟨first, ts, rfl, hfirst, hts⟩ := List.map_eq_append_iff.1 hts
    obtain ⟨span, hspan⟩ := h item List.mem_cons_self first hfirst (⟨bracket, before⟩ :: outer)
      (ts ++ rest)
    obtain ⟨ds, hds, hfeed⟩ := ih (fun item hitem => h item (List.mem_cons_of_mem _ hitem)) hts
      ((item.2, span) :: before)
    refine ⟨(item.2, span) :: ds, by simp [hds], ?_⟩
    rw [List.append_assoc, hspan, List.reverse_cons, List.append_assoc]
    exact hfeed

/-- What tokens write is delivered, whatever stands around them. -/
theorem Writes.feed {ks : List TokenKind} {d : Datum} (h : Writes ks d) (hks : .symbol "." ∉ ks) :
    ∀ ts : List Token, ts.map Token.kind = ks → ∀ stack rest,
      ∃ span, feed stack (ts ++ rest) = follow rest (deliver d span stack) := by
  induction h with
  | integer n | symbol name | dot =>
    intro ts hts stack rest
    obtain ⟨t, _, rfl, ht, hnil⟩ := List.map_eq_cons_iff.1 hts
    obtain rfl := List.map_eq_nil_iff.1 hnil
    refine ⟨t.span, ?_⟩
    rw [List.singleton_append, feed_cons]
    simp only [ofToken, ht]
  | @list items d hitems hlist ih =>
    intro ts hts stack rest
    have hplain : .symbol "." ∉ items.flatMap (·.1) := fun hmem =>
      hks (List.mem_cons_of_mem _ (List.mem_append_left _ hmem))
    obtain ⟨bracket, _, rfl, hbracket, hts⟩ := List.map_eq_cons_iff.1 hts
    obtain ⟨inside, _, rfl, hinside, hrest⟩ := List.map_eq_append_iff.1 hts
    obtain ⟨close, _, rfl, hclose, hnil⟩ := List.map_eq_cons_iff.1 hrest
    obtain rfl := List.map_eq_nil_iff.1 hnil
    have ih : ∀ item ∈ items, ∀ ts : List Token, ts.map Token.kind = item.1 → ∀ stack rest,
        ∃ span, TokenStream.feed stack (ts ++ rest) = follow rest (deliver item.2 span stack) :=
      fun item hitem => ih item hitem fun hmem => hplain (List.mem_flatMap.2 ⟨item, hitem, hmem⟩)
    obtain ⟨ds, hds, hfeed⟩ := feed_items ih hinside bracket.span [] stack (close :: rest)
    -- At the closing bracket, the items read so far are those of the list.
    have hmake : Datum.ofItems ds 0 = .ok d :=
      (ofItems_eq_ok_iff hds (dot_iff_of_writes hitems hplain)).2 hlist
    refine ⟨bracket.span.merge close.span, ?_⟩
    rw [List.cons_append, List.append_assoc, List.singleton_append, feed_cons]
    simp only [ofToken, hbracket]
    change TokenStream.feed (⟨bracket.span, []⟩ :: stack) (inside ++ close :: rest) = _
    rw [hfeed, feed_cons]
    simp [ofToken, hclose, hmake]

/-! ## What is read has been written -/

/-- The open lists hold the items written by the tokens read so far. -/
inductive Opens : List OpenList → List TokenKind → Prop
  | nil : Opens [] []
  | cons {inner : OpenList} {outer : List OpenList} {before : List TokenKind} (items : List Item) :
      Opens outer before → (∀ item ∈ items, Writes item.1 item.2) →
      inner.items.reverse.map (·.1) = items.map (·.2) →
      Opens (inner :: outer) (before ++ .openParen :: items.flatMap (·.1))

/-- What has come of the tokens `ks`. -/
def ReaderStep.Of (ks : List TokenKind) : ReaderStep → Prop
  | .more stack => Opens stack ks
  | .done d => Writes ks d
  | .failed _ => True

theorem Opens.deliver {stack : List OpenList} {before ks : List TokenKind} {d : Datum}
    (h : Opens stack before) (hd : Writes ks d) (span : Span) :
    (ReaderStep.deliver d span stack).Of (before ++ ks) := by
  cases h with
  | nil => exact hd
  | @cons inner outer before items houter hitems hinner =>
    have hopens : Opens ({ inner with items := (d, span) :: inner.items } :: outer)
        (before ++ .openParen :: (items ++ [(ks, d)]).flatMap (·.1)) := by
      refine .cons _ houter (fun item hitem => ?_) ?_
      · rcases List.mem_append.1 hitem with hitem | hitem
        · exact hitems item hitem
        · rw [List.mem_singleton.1 hitem]
          exact hd
      · simpa using hinner
    simpa [ReaderStep.deliver, ReaderStep.Of] using hopens

/-- Each token is added to what has been written. -/
theorem Opens.ofToken {stack : List OpenList} {before : List TokenKind} {t : Token}
    (h : Opens stack before) (hplain : .symbol "." ∉ before) :
    (ReaderStep.ofToken stack t).Of (before ++ [t.kind]) := by
  unfold ReaderStep.ofToken
  cases t.kind with
  | integer n => exact h.deliver (.integer n) _
  | symbol name => exact h.deliver (.symbol name) _
  | dot => exact h.deliver .dot _
  | quote => trivial
  | openParen => exact .cons [] h (List.forall_mem_nil _) rfl
  | closeParen =>
    cases h with
    | nil => trivial
    | @cons inner outer before items houter hitems hinner =>
      have hdot := dot_iff_of_writes hitems fun hmem =>
        hplain (List.mem_append_right _ (List.mem_cons_of_mem _ hmem))
      rcases hmake : Datum.ofItems inner.items.reverse 0 with e | d
      · simp only [hmake]
        trivial
      · have hlist := (ofItems_eq_ok_iff hinner hdot).1 hmake
        simp only [hmake]
        simpa using houter.deliver (.list hitems hlist) (inner.bracket.merge t.span)

/-- A datum read by the end of the tokens has been written by all of them. -/
theorem writes_of_feed {stack : List OpenList} {before : List TokenKind} {ts : List Token}
    {d : Datum} (h : Opens stack before) (hplain : .symbol "." ∉ before ++ ts.map Token.kind)
    (hfeed : feed stack ts = (.ok d, ofTokens [])) : Writes (before ++ ts.map Token.kind) d := by
  induction ts generalizing stack before with
  | nil => cases hfeed
  | cons t ts ih =>
    have hstep := h.ofToken (t := t) fun hmem => hplain (List.mem_append_left _ hmem)
    rw [feed_cons] at hfeed
    rw [List.map_cons, List.append_cons] at hplain ⊢
    cases hof : ReaderStep.ofToken stack t with
    | more stack' =>
      rw [hof] at hstep hfeed
      exact ih hstep hplain hfeed
    | done d' =>
      -- Reading stops here, so this is the last token.
      rw [hof] at hstep hfeed
      cases ts with
      | nil =>
        cases hfeed
        simpa [ReaderStep.Of] using hstep
      | cons next ts => cases hfeed
    | failed e =>
      rw [hof] at hfeed
      cases hfeed

/-! ## Texts -/

/-- What the tokens of a text write is what the text says. -/
theorem Writes.parse {text : String} {ts : List Token} {d : Datum} (hts : tokenize text = .ok ts)
    (h : Writes (ts.map Token.kind) d) : Datum.parse text = .ok d := by
  obtain ⟨span, hfeed⟩ := h.feed (dot_not_mem_of_tokenize hts) ts rfl [] []
  rw [List.append_nil] at hfeed
  exact Datum.parse_eq_ok_iff.2 ⟨ts, hts, hfeed⟩

/-- A text says a datum just if it has tokens and these write the datum, by the
    grammar; and there is one such datum at most. -/
theorem parse_ok_iff_writes (text : String) :
    (∀ d, Datum.parse text = .ok d ↔
      ∃ ts, tokenize text = .ok ts ∧ Writes (ts.map Token.kind) d) ∧
    ∀ ts d d', tokenize text = .ok ts → Writes (ts.map Token.kind) d →
      Writes (ts.map Token.kind) d' → d = d' := by
  refine ⟨fun d => ⟨fun h => ?_, fun h => ?_⟩, fun ts d d' hts hd hd' => ?_⟩
  · obtain ⟨ts, hts, hfeed⟩ := Datum.parse_eq_ok_iff.1 h
    exact ⟨ts, hts, writes_of_feed .nil (dot_not_mem_of_tokenize hts) hfeed⟩
  · obtain ⟨ts, hts, hd⟩ := h
    exact hd.parse hts
  · exact Except.ok.inj ((hd.parse hts).symm.trans (hd'.parse hts))

/-- The tokens of `(a () . b)` write a pair in a pair, and nothing else. -/
theorem parse_ok_iff_writes_dotted :
    Datum.parse "(a () . b)" = .ok (.pair (.symbol "a") (.pair .nil (.symbol "b"))) ∧
      ∃ ts, tokenize "(a () . b)" = .ok ts ∧ ∀ d, Writes (ts.map Token.kind) d →
        d = .pair (.symbol "a") (.pair .nil (.symbol "b")) := by
  obtain ⟨hiff, hunique⟩ := parse_ok_iff_writes "(a () . b)"
  have hts : tokenize "(a () . b)" = .ok [⟨.openParen, ⟨0, 1⟩⟩, ⟨.symbol "a", ⟨1, 2⟩⟩,
      ⟨.openParen, ⟨3, 4⟩⟩, ⟨.closeParen, ⟨4, 5⟩⟩, ⟨.dot, ⟨6, 7⟩⟩, ⟨.symbol "b", ⟨8, 9⟩⟩,
      ⟨.closeParen, ⟨9, 10⟩⟩] := by cbv
  have hnil : Writes [.openParen, .closeParen] .nil :=
    .list (List.forall_mem_nil _) (.proper (List.forall_mem_nil _))
  have hwrites : Writes [.openParen, .symbol "a", .openParen, .closeParen, .dot, .symbol "b",
      .closeParen] (.pair (.symbol "a") (.pair .nil (.symbol "b"))) := by
    have hlist : ListOf [([.symbol "a"], .symbol "a"), ([.openParen, .closeParen], .nil),
        ([.dot], .dot), ([.symbol "b"], .symbol "b")] _ :=
      .dotted [([.symbol "a"], .symbol "a"), ([.openParen, .closeParen], .nil)] _ rfl (by simp)
        (by simp)
    exact .list (by simp [hnil, Writes.symbol, Writes.dot]) hlist
  exact ⟨(hiff _).2 ⟨_, hts, hwrites⟩, _, hts, fun d hd => hunique _ _ _ hts hd hwrites⟩

end SmallScheme
