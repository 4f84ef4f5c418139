import SmallScheme.Proofs.Reader.Grammar

/-!
# Which error is reported

A text may be wrong in two ways: one of its lexemes is faulty, or a token stands
out of its place. Reading stops at one of them, and one token of lookahead decides
at which.

Tokens one after another are a datum cut short (`Unclosed`), or a datum, or one of
them is the first that is *out of place* (`OutOfPlace`): a quote mark, a bracket
that closes nothing, a token after the datum, or a bracket that closes a list
whose first dot is misplaced. This is told by the grammar alone. The reader
notices that a token is out of place when it takes the token in, and has looked at
the next lexeme by then; so a fault right after the token, or anywhere before,
is reported in its stead (`parse_decided_by_lookahead`).
-/

namespace SmallScheme

open TokenStream ReaderStep

/-- The tokens write a datum. -/
def IsDatum (ts : List Token) : Prop := ∃ d, Writes (ts.map Token.kind) d

/-- The tokens are open brackets, each with the data that follow it so far. -/
inductive Unclosed : List Token → Prop
  | nil : Unclosed []
  | cons {outer : List Token} {bracket : Token} {items : List (List Token)}
      (houter : Unclosed outer) (hbracket : bracket.kind = .openParen)
      (hitems : ∀ item ∈ items, IsDatum item) : Unclosed (outer ++ bracket :: items.flatten)

/-- After `before`, in which every token is in its place, `t` is not, and this is
    what is wrong. -/
inductive OutOfPlace : List Token → Token → ReadError → Prop
  | quoteMark {before : List Token} {t : Token} (hbefore : Unclosed before) (ht : t.kind = .quote) :
      OutOfPlace before t (.quoteMark t.span)
  | unopened {t : Token} (ht : t.kind = .closeParen) :
      OutOfPlace [] t (.unexpectedToken t .datumStart)
  | surplus {before : List Token} (t : Token) (hbefore : IsDatum before) :
      OutOfPlace before t (.unexpectedToken t .endOfInput)
  /-- The first dot among the items is the first item, or not followed by just one. -/
  | misplacedDot {outer : List Token} {bracket dot t : Token} {front back : List (List Token)}
      (houter : Unclosed outer) (hbracket : bracket.kind = .openParen)
      (hfront : ∀ item ∈ front, IsDatum item) (hne : ∀ item ∈ front, item.map Token.kind ≠ [.dot])
      (hdot : dot.kind = .dot) (hback : ∀ item ∈ back, IsDatum item)
      (hplace : front = [] ∨ back.length ≠ 1) (ht : t.kind = .closeParen) :
      OutOfPlace (outer ++ bracket :: (front.flatten ++ dot :: back.flatten)) t
        (.misplacedDot dot.span)

/-- The lexeme with the number `k` is the first that is faulty. -/
def FirstFault (ls : List Lexeme) (k : Nat) (e : LexicalError) : Prop :=
  ∃ (ts : List Token) (rest : List Lexeme), ls = ts.map .token ++ .fault e :: rest ∧ ts.length = k

/-- The lexeme with the number `j` is a token after tokens only, and the first that
    is out of place. -/
def FirstOutOfPlace (ls : List Lexeme) (j : Nat) (e : ReadError) : Prop :=
  ∃ (ts : List Token) (t : Token) (rest : List Lexeme),
    ls = ts.map .token ++ .token t :: rest ∧ ts.length = j ∧ OutOfPlace ts t e

/-! ## Every token is in its place or not -/

/-- The data that items write. -/
theorem exists_items {items : List (List Token)} (h : ∀ item ∈ items, IsDatum item) :
    ∃ its : List Item, its.map (·.1) = items.map (·.map Token.kind) ∧
      ∀ it ∈ its, Writes it.1 it.2 := by
  induction items with
  | nil => exact ⟨[], rfl, List.forall_mem_nil _⟩
  | cons item items ih =>
    obtain ⟨⟨d, hd⟩, hitems⟩ := List.forall_mem_cons.1 h
    obtain ⟨its, hits, hwrites⟩ := ih hitems
    exact ⟨(item.map Token.kind, d) :: its, by simp [hits], List.forall_mem_cons.2 ⟨hd, hwrites⟩⟩

theorem map_kind_flatten {items : List (List Token)} {its : List Item}
    (h : its.map (·.1) = items.map (·.map Token.kind)) :
    items.flatten.map Token.kind = its.flatMap (·.1) := by
  rw [List.flatMap_def, h, List.map_flatten]

theorem forall_ne_dot_of_map {items : List (List Token)} {its : List Item}
    (h : its.map (·.1) = items.map (·.map Token.kind))
    (hne : ∀ item ∈ items, item.map Token.kind ≠ [.dot]) : ∀ it ∈ its, it.1 ≠ [.dot] := by
  have : ∀ ks ∈ its.map (·.1), ks ≠ [.dot] := by
    rw [h, List.forall_mem_map]
    exact hne
  rwa [List.forall_mem_map] at this

section Brackets

variable {bracket t : Token} (hbracket : bracket.kind = .openParen) (ht : t.kind = .closeParen)

include hbracket ht

/-- Brackets around items make a datum if there is no bare dot, -/
theorem isDatum_proper {items : List (List Token)} (hitems : ∀ item ∈ items, IsDatum item)
    (hne : ∀ item ∈ items, item.map Token.kind ≠ [.dot]) :
    IsDatum (bracket :: items.flatten ++ [t]) := by
  obtain ⟨its, hits, hwrites⟩ := exists_items hitems
  have hlist := Writes.list hwrites (.proper (forall_ne_dot_of_map hits hne))
  exact ⟨_, by simpa only [List.map_append, List.map_cons, List.map_nil, hbracket, ht,
    map_kind_flatten hits] using hlist⟩

/-- or if the first one stands where it may. -/
theorem isDatum_dotted {front : List (List Token)} {dot : Token} {last : List Token}
    (hfront : ∀ item ∈ front, IsDatum item) (hne : ∀ item ∈ front, item.map Token.kind ≠ [.dot])
    (hdot : dot.kind = .dot) (hlast : IsDatum last) (hnil : front ≠ []) :
    IsDatum (bracket :: (front.flatten ++ dot :: last) ++ [t]) := by
  obtain ⟨its, hits, hwrites⟩ := exists_items hfront
  obtain ⟨d, hd⟩ := hlast
  have hits_ne : its ≠ [] := fun h => hnil (by simpa [h] using hits.symm)
  have hlist : ListOf (its ++ [([.dot], .dot), (last.map Token.kind, d)]) _ :=
    .dotted its _ rfl hits_ne (forall_ne_dot_of_map hits hne)
  have hall : ∀ it ∈ its ++ [([.dot], .dot), (last.map Token.kind, d)], Writes it.1 it.2 := by
    intro it hit
    rcases List.mem_append.1 hit with hit | hit
    · exact hwrites it hit
    · rcases List.mem_pair.1 hit with rfl | rfl
      · exact .dot
      · exact hd
  exact ⟨_, by simpa [hbracket, ht, hdot, map_kind_flatten hits] using Writes.list hall hlist⟩

end Brackets

/-- A datum goes into the innermost list, or is all there is. -/
theorem Unclosed.append {before item : List Token} (h : Unclosed before) (hitem : IsDatum item) :
    Unclosed (before ++ item) ∨ IsDatum (before ++ item) := by
  cases h with
  | nil => exact .inr hitem
  | @cons outer bracket items houter hbracket hitems =>
    have hall : ∀ item' ∈ items ++ [item], IsDatum item' := by
      simpa [or_imp, forall_and] using ⟨hitems, hitem⟩
    have hopen := Unclosed.cons houter hbracket hall
    exact .inl (by simpa using hopen)

/-- One more token is out of place, or adds to the datum, or completes it. -/
theorem Unclosed.snoc {before : List Token} (h : Unclosed before) (t : Token) :
    (∃ e, OutOfPlace before t e) ∨ Unclosed (before ++ [t]) ∨ IsDatum (before ++ [t]) := by
  cases ht : t.kind with
  | integer n => exact .inr (h.append ⟨_, by simpa [ht] using Writes.integer n⟩)
  | symbol name => exact .inr (h.append ⟨_, by simpa [ht] using Writes.symbol name⟩)
  | dot => exact .inr (h.append ⟨_, by simpa [ht] using Writes.dot⟩)
  | quote => exact .inl ⟨_, .quoteMark h ht⟩
  | openParen => exact .inr (.inl (.cons h ht (List.forall_mem_nil _)))
  | closeParen =>
    cases h with
    | nil => exact .inl ⟨_, .unopened ht⟩
    | @cons outer bracket items houter hbracket hitems =>
      -- The bracket closes the innermost list; what matters is its first bare dot.
      rcases hfind : items.find? fun item => item.map Token.kind == [.dot] with _ | mark
      · have hne : ∀ item ∈ items, item.map Token.kind ≠ [.dot] := by
          simpa using List.find?_eq_none.1 hfind
        have hdatum := isDatum_proper hbracket ht hitems hne
        exact .inr (by simpa using houter.append hdatum)
      · obtain ⟨hmark, front, back, rfl, hne⟩ := List.find?_eq_some_iff_append.1 hfind
        obtain ⟨dot, rfl, hdot⟩ := List.map_eq_singleton_iff.1 (beq_iff_eq.1 hmark)
        have hne : ∀ item ∈ front, item.map Token.kind ≠ [.dot] := by simpa using hne
        have hfront : ∀ item ∈ front, IsDatum item := fun item hitem =>
          hitems item (List.mem_append_left _ hitem)
        have hback : ∀ item ∈ back, IsDatum item := fun item hitem =>
          hitems item (List.mem_append_right _ (List.mem_cons_of_mem _ hitem))
        rw [List.flatten_append, List.flatten_cons, List.singleton_append]
        by_cases hplace : front = [] ∨ back.length ≠ 1
        · exact .inl ⟨_, .misplacedDot houter hbracket hfront hne hdot hback hplace ht⟩
        · obtain ⟨hnil, hlength⟩ := not_or.1 hplace
          obtain ⟨last, rfl⟩ := List.length_eq_one_iff.1 (not_not.1 hlength)
          have hdatum := isDatum_dotted hbracket ht hfront hne hdot
            (hback last List.mem_cons_self) hnil
          exact .inr (by simpa using houter.append hdatum)

/-- Tokens are all in their places, or one of them is the first that is not. -/
theorem outOfPlace_or_unclosed_or_isDatum (ts : List Token) :
    (∃ before t after e, ts = before ++ t :: after ∧ OutOfPlace before t e) ∨
      Unclosed ts ∨ IsDatum ts := by
  induction ts using List.reverseRecOn with
  | nil => exact .inr (.inl .nil)
  | append_singleton ts t ih =>
    obtain ⟨before, t', after, e, rfl, he⟩ | hopen | hdatum := ih
    · exact .inl ⟨before, t', after ++ [t], e, by simp, he⟩
    · obtain ⟨e, he⟩ | hmore := hopen.snoc t
      · exact .inl ⟨ts, t, [], e, rfl, he⟩
      · exact .inr hmore
    · exact .inl ⟨ts, t, [], _, rfl, .surplus t hdatum⟩

/-! ## The reader notices -/

theorem Datum.ofItems_misplaced {front back : List (Datum × Span)} {mark : Datum × Span}
    (h : ∀ x ∈ front, x.1 ≠ dot) (hmark : mark.1 = dot) (hplace : front = [] ∨ back.length ≠ 1) :
    ofItems (front ++ mark :: back) 0 = .error (.misplacedDot mark.2) := by
  rw [ofItems, List.drop_zero, span_append_cons h hmark]
  rcases back with _ | ⟨last, _ | ⟨_, _⟩⟩
  · rfl
  · simp [hplace.resolve_right (not_not.2 rfl)]
  · rfl

section Feed

variable {before rest : List Token} {items : List (List Token)} {t : Token} {e : ReadError}

/-- Data are added to the innermost list. -/
theorem feed_data (h : ∀ item ∈ items, IsDatum item)
    (hplain : .symbol "." ∉ items.flatten.map Token.kind) (bracket : Span)
    (ds : List (Datum × Span)) (outer : List OpenList) (rest : List Token) :
    ∃ ds' : List (Datum × Span), ds'.length = items.length ∧
      ((∀ item ∈ items, item.map Token.kind ≠ [.dot]) → ∀ x ∈ ds', x.1 ≠ .dot) ∧
      feed (⟨bracket, ds⟩ :: outer) (items.flatten ++ rest) =
        feed (⟨bracket, ds'.reverse ++ ds⟩ :: outer) rest := by
  obtain ⟨its, hits, hwrites⟩ := exists_items h
  have hkinds := map_kind_flatten hits
  rw [hkinds] at hplain
  have hread : ∀ it ∈ its, ∀ ts : List Token, ts.map Token.kind = it.1 → ∀ stack rest,
      ∃ span, feed stack (ts ++ rest) = follow rest (deliver it.2 span stack) :=
    fun it hit => (hwrites it hit).feed fun hmem => hplain (List.mem_flatMap.2 ⟨it, hit, hmem⟩)
  obtain ⟨ds', hds', hfeed⟩ := feed_items hread hkinds bracket ds outer rest
  refine ⟨ds', ?_, fun hne => ?_, hfeed⟩
  · simpa using congrArg List.length hds' |>.trans (by simpa using congrArg List.length hits)
  · exact (forall_ne_dot_iff hds' (dot_iff_of_writes hwrites hplain)).2
      (forall_ne_dot_of_map hits hne)

theorem feed_openParen {bracket : Token} (h : bracket.kind = .openParen) (stack : List OpenList)
    (rest : List Token) :
    feed stack (bracket :: rest) = feed (⟨bracket.span, []⟩ :: stack) rest := by
  rw [feed_cons]
  simp only [ofToken, h, follow]

/-- The lists that are open in the grammar are so in the reader. -/
theorem Unclosed.feed (h : Unclosed before) (hplain : .symbol "." ∉ before.map Token.kind)
    (rest : List Token) : ∃ stack, (stack = [] ↔ before = []) ∧
      TokenStream.feed [] (before ++ rest) = TokenStream.feed stack rest := by
  induction h generalizing rest with
  | nil => exact ⟨[], by simp, rfl⟩
  | @cons outer bracket items _ hbracket hitems ih =>
    simp only [List.map_append, List.map_cons, List.mem_append, List.mem_cons, not_or] at hplain
    obtain ⟨houter, -, hinside⟩ := hplain
    obtain ⟨stack, -, hstack⟩ := ih houter (bracket :: items.flatten ++ rest)
    obtain ⟨ds, -, -, hfeed⟩ := feed_data hitems hinside bracket.span [] stack rest
    refine ⟨⟨bracket.span, ds.reverse ++ []⟩ :: stack, by simp, ?_⟩
    rw [List.append_assoc, hstack, List.cons_append, feed_openParen hbracket, hfeed]

/-- A token out of place ends reading, with the tokens after it still to come; one
    that is surplus itself is left over. -/
theorem OutOfPlace.feed (h : OutOfPlace before t e) (hplain : .symbol "." ∉ before.map Token.kind)
    (rest : List Token) :
    TokenStream.feed [] (before ++ t :: rest) = (.error e, ofTokens rest) ∨
      ∃ d, TokenStream.feed [] (before ++ t :: rest) = (.ok d, ofTokens (t :: rest)) ∧
        e = .unexpectedToken t .endOfInput := by
  cases h with
  | quoteMark hbefore ht =>
    obtain ⟨stack, -, hstack⟩ := hbefore.feed hplain (t :: rest)
    left
    rw [hstack, feed_cons]
    simp only [ofToken, ht, follow]
  | unopened ht =>
    left
    rw [List.nil_append, feed_cons]
    simp only [ofToken, ht, follow]
  | surplus _ hbefore =>
    obtain ⟨d, hd⟩ := hbefore
    obtain ⟨span, hfeed⟩ := hd.feed hplain before rfl [] (t :: rest)
    exact .inr ⟨d, hfeed, rfl⟩
  | @misplacedDot outer bracket dot _ front back houter hbracket hfront hne hdot hback hplace ht =>
    simp only [List.map_append, List.map_cons, List.mem_append, List.mem_cons, not_or] at hplain
    obtain ⟨hplain, -, hplainFront, -, hplainBack⟩ := hplain
    obtain ⟨stack, -, hstack⟩ := houter.feed hplain
      (bracket :: (front.flatten ++ dot :: back.flatten) ++ t :: rest)
    obtain ⟨ds, hlength, hds, hfeed⟩ := feed_data hfront hplainFront bracket.span [] stack
      (dot :: (back.flatten ++ t :: rest))
    obtain ⟨ds', hlength', -, hfeed'⟩ := feed_data hback hplainBack bracket.span
      ((.dot, dot.span) :: ds.reverse) stack (t :: rest)
    -- The items are those before the dot, the dot with its own span, and those after it.
    have hlist : Datum.ofItems (ds ++ (.dot, dot.span) :: ds') 0 =
        .error (.misplacedDot dot.span) := by
      refine Datum.ofItems_misplaced (hds hne) rfl (hplace.imp (fun hnil => ?_) fun hlen => ?_)
      · rw [hnil] at hlength
        exact List.length_eq_zero_iff.1 hlength
      · rwa [hlength']
    left
    rw [List.append_assoc, hstack, List.cons_append, feed_openParen hbracket, List.append_assoc,
      List.cons_append, hfeed, feed_cons]
    simp only [ofToken, hdot, deliver, follow, List.append_nil]
    rw [hfeed', feed_cons]
    simp only [ofToken, ht, List.reverse_append, List.reverse_cons, List.reverse_reverse,
      List.append_assoc, List.singleton_append, hlist, follow]

end Feed

/-! ## A fault among the lexemes -/

namespace TokenStream

/-- A datum is all that a text says if no token is left over. A fault right after
    the token that is left over comes before it. -/
def conclude : Except ReadError Datum × TokenStream → Except ReadError Datum
  | (.error e, _) => .error e
  | (.ok d, ⟨none, _⟩) => .ok d
  | (.ok _, ⟨some _, .fault e :: _⟩) => .error (.lexical e)
  | (.ok _, ⟨some found, []⟩) => .error (.unexpectedToken found .endOfInput)
  | (.ok _, ⟨some found, .token _ :: _⟩) => .error (.unexpectedToken found .endOfInput)

theorem readOnly_eq_conclude (s : TokenStream) : s.readOnly = conclude s.read := by
  rw [readOnly]
  rcases s.read with ⟨e | d, _ | found, _ | ⟨_ | _, rest⟩⟩ <;> rfl

/-- If reading stops before the last token is current, a fault after the tokens is
    not met; else it is met, before anything that is wrong with the last token. -/
theorem readFrom_append_fault (stack : List OpenList) (t : Token) (ts : List Token)
    (e : LexicalError) (rest : List Lexeme) :
    (∀ r next left, feed stack (t :: ts) = (r, ⟨some next, left⟩) →
      readFrom stack t (ts.map .token ++ .fault e :: rest) =
        (r, ⟨some next, left ++ .fault e :: rest⟩)) ∧
    ((feed stack (t :: ts)).2 = ofTokens [] →
      (readFrom stack t (ts.map .token ++ .fault e :: rest)).1 = .error (.lexical e)) := by
  induction ts generalizing stack t with
  | nil =>
    refine ⟨fun r next left h => ?_, fun _ => rfl⟩
    rw [feed_cons] at h
    cases hof : ofToken stack t <;> rw [hof] at h <;> cases h
  | cons next ts ih =>
    rw [feed_cons, List.map_cons, List.cons_append, readFrom]
    cases ofToken stack t with
    | more stack' => exact ih stack' next
    | done d | failed e' =>
      refine ⟨fun r next' left h => ?_, fun h => by cases h⟩
      cases h
      rfl

end TokenStream

section Parse

variable {text : String} {ts : List Token}

theorem Datum.parse_of_tokens (h : lexemes text = ts.map .token) :
    parse text = conclude (feed [] ts) := by
  rw [parse, ofText, h]
  cases ts with
  | nil => rfl
  | cons t ts => exact readOnly_eq_conclude _

variable {e : LexicalError} {rest : List Lexeme}
  (h : lexemes text = ts.map .token ++ .fault e :: rest)

include h

/-- The fault is reported if reading takes all tokens before it, -/
theorem Datum.parse_of_feed_end (hfeed : (feed [] ts).2 = ofTokens []) :
    parse text = .error (.lexical e) := by
  rw [parse, ofText, h]
  cases ts with
  | nil => rfl
  | cons t ts =>
    have hread := (readFrom_append_fault [] t ts e rest).2 hfeed
    refine (readOnly_eq_conclude _).trans ?_
    change conclude (readFrom [] t (ts.map .token ++ .fault e :: rest)) = _
    generalize readFrom [] t (ts.map .token ++ .fault e :: rest) = result at hread ⊢
    obtain ⟨_, _⟩ := result
    subst hread
    rfl

/-- and is not, but for what is left over right before it, if reading stops. -/
theorem Datum.parse_of_feed_stop {r : Except ReadError Datum} {next : Token} {left : List Lexeme}
    (hfeed : feed [] ts = (r, ⟨some next, left⟩)) :
    parse text = conclude (r, ⟨some next, left ++ .fault e :: rest⟩) := by
  rw [parse, ofText, h]
  cases ts with
  | nil => cases hfeed
  | cons t ts =>
    rw [← (readFrom_append_fault [] t ts e rest).1 r next left hfeed]
    exact readOnly_eq_conclude _

end Parse

/-! ## Both kinds of error -/

section First

variable {ls : List Lexeme} {text : String}

/-- Lexemes are all tokens up to the first fault, or to the end. -/
theorem eq_tokens_or_exists_fault (ls : List Lexeme) :
    (∃ ts : List Token, ls = ts.map .token) ∨
      ∃ (ts : List Token) (e : LexicalError) (rest : List Lexeme),
        ls = ts.map .token ++ .fault e :: rest := by
  induction ls with
  | nil => exact .inl ⟨[], rfl⟩
  | cons l ls ih =>
    cases l with
    | fault e => exact .inr ⟨[], e, ls, rfl⟩
    | token t =>
      obtain ⟨ts, rfl⟩ | ⟨ts, e, rest, rfl⟩ := ih
      · exact .inl ⟨t :: ts, rfl⟩
      · exact .inr ⟨t :: ts, e, rest, rfl⟩

theorem FirstFault.unique {k k' : Nat} {e e' : LexicalError} (h : FirstFault ls k e)
    (h' : FirstFault ls k' e') : k = k' ∧ e = e' := by
  obtain ⟨ts, rest, rfl, rfl⟩ := h
  obtain ⟨ts', rest', heq, rfl⟩ := h'
  induction ts generalizing ts' with
  | nil =>
    cases ts' with
    | nil =>
      cases heq
      exact ⟨rfl, rfl⟩
    | cons => cases heq
  | cons t ts ih =>
    cases ts' with
    | nil => cases heq
    | cons t' ts' =>
      obtain ⟨hlength, he⟩ := ih ts' (List.cons.inj heq).2
      exact ⟨congrArg (· + 1) hlength, he⟩

theorem ofTokens_injective : Function.Injective ofTokens := by
  rintro (_ | ⟨t, ts⟩) (_ | ⟨t', ts'⟩) h
  · rfl
  · cases h
  · cases h
  · obtain ⟨ht, hts⟩ := TokenStream.mk.inj h
    have hinj : Function.Injective Lexeme.token := fun _ _ h => Lexeme.token.inj h
    rw [Option.some.inj ht, hinj.list_map hts]

/-- The tokens before a place in a text hold no symbol that is written like a dot. -/
theorem dot_not_mem_before {ts : List Token} {rest : List Lexeme}
    (h : lexemes text = ts.map .token ++ rest) : .symbol "." ∉ ts.map Token.kind :=
  dot_not_mem_of_lexemes fun t ht => by
    rw [h]
    exact List.mem_append_left _ (List.mem_map_of_mem ht)

theorem FirstOutOfPlace.eq_of_le {j j' : Nat} {e e' : ReadError}
    (h : FirstOutOfPlace (lexemes text) j e) (h' : FirstOutOfPlace (lexemes text) j' e')
    (hle : j ≤ j') : j = j' ∧ e = e' := by
  obtain ⟨ts, t, rest, heq, rfl, hout⟩ := h
  obtain ⟨ts', t', rest', heq', rfl, hout'⟩ := h'
  have hinj : Function.Injective Lexeme.token := fun _ _ h => Lexeme.token.inj h
  have hbegin : (ts ++ [t]).map Lexeme.token <+: lexemes text := ⟨rest, by simp [heq]⟩
  have hbegin' : (ts' ++ [t']).map Lexeme.token <+: lexemes text := ⟨rest', by simp [heq']⟩
  have hmap : (ts ++ [t]).map Lexeme.token <+: (ts' ++ [t']).map Lexeme.token :=
    List.prefix_of_prefix_length_le hbegin hbegin' (by simpa using hle)
  obtain ⟨after, hafter⟩ := (List.prefix_map_iff_of_injective hinj).1 hmap
  -- Reading the longer of the two prefixes ends at both tokens.
  have hfeed := hout.feed (dot_not_mem_before heq) after
  have hfeed' := hout'.feed (dot_not_mem_before heq') []
  rw [List.append_cons, hafter] at hfeed
  obtain hfeed | ⟨d, hfeed, rfl⟩ := hfeed
  · obtain hfeed' | ⟨d', hfeed', -⟩ := hfeed'
    · obtain ⟨he, hrest⟩ := Prod.mk.inj (hfeed.symm.trans hfeed')
      obtain rfl := ofTokens_injective hrest
      exact ⟨by simpa using congrArg List.length hafter, Except.error.inj he⟩
    · cases (Prod.mk.inj (hfeed.symm.trans hfeed')).1
  · obtain hfeed' | ⟨d', hfeed', rfl⟩ := hfeed'
    · cases (Prod.mk.inj (hfeed.symm.trans hfeed')).1
    · have hrest := ofTokens_injective (Prod.mk.inj (hfeed.symm.trans hfeed')).2
      obtain ⟨rfl, rfl⟩ := List.cons.inj hrest
      exact ⟨by simpa using congrArg List.length hafter, rfl⟩

theorem FirstOutOfPlace.unique {j j' : Nat} {e e' : ReadError}
    (h : FirstOutOfPlace (lexemes text) j e) (h' : FirstOutOfPlace (lexemes text) j' e') :
    j = j' ∧ e = e' := by
  rcases Nat.le_total j j' with hle | hle
  · exact h.eq_of_le h' hle
  · obtain ⟨hj, he⟩ := h'.eq_of_le h hle
    exact ⟨hj.symm, he.symm⟩

/-- A fault is reported if no token is out of place up to the one before the last
    before it. -/
theorem FirstFault.parse {k : Nat} {e : LexicalError} (h : FirstFault (lexemes text) k e)
    (hfirst : ∀ j e', FirstOutOfPlace (lexemes text) j e' → k ≤ j + 1) :
    Datum.parse text = .error (.lexical e) := by
  obtain ⟨ts, rest, heq, rfl⟩ := h
  have hplain := dot_not_mem_before heq
  obtain ⟨before, t, after, e', rfl, hout⟩ | hopen | ⟨d, hd⟩ := outOfPlace_or_unclosed_or_isDatum ts
  · have hle := hfirst before.length e'
      ⟨before, t, after.map .token ++ .fault e :: rest, by simp [heq], rfl, hout⟩
    obtain rfl : after = [] := by
      simp only [List.length_append, List.length_cons] at hle
      exact List.length_eq_zero_iff.1 (by omega)
    have hbefore : .symbol "." ∉ before.map Token.kind := fun hmem =>
      hplain (by rw [List.map_append]; exact List.mem_append_left _ hmem)
    obtain hfeed | ⟨d, hfeed, -⟩ := hout.feed hbefore []
    · exact Datum.parse_of_feed_end heq (congrArg Prod.snd hfeed)
    · exact Datum.parse_of_feed_stop heq hfeed
  · obtain ⟨stack, -, hfeed⟩ := hopen.feed hplain []
    rw [List.append_nil] at hfeed
    exact Datum.parse_of_feed_end heq (congrArg Prod.snd hfeed)
  · obtain ⟨span, hfeed⟩ := hd.feed hplain ts rfl [] []
    rw [List.append_nil] at hfeed
    exact Datum.parse_of_feed_end heq (congrArg Prod.snd hfeed)

/-- A token out of place is reported if the lexeme after it is no fault, nor one
    before it. -/
theorem FirstOutOfPlace.parse {j : Nat} {e : ReadError} (h : FirstOutOfPlace (lexemes text) j e)
    (hfirst : ∀ k e', FirstFault (lexemes text) k e' → j + 1 < k) :
    Datum.parse text = .error e := by
  obtain ⟨ts, t, rest, heq, rfl, hout⟩ := h
  have hplain := dot_not_mem_before heq
  obtain ⟨after, rfl⟩ | ⟨after, e', rest, rfl⟩ := eq_tokens_or_exists_fault rest
  · have hall : lexemes text = (ts ++ t :: after).map .token := by simp [heq]
    rw [Datum.parse_of_tokens hall]
    obtain hfeed | ⟨d, hfeed, rfl⟩ := hout.feed hplain after
    · rw [hfeed]
      rfl
    · rw [hfeed]
      cases after <;> rfl
  · have hall : lexemes text = (ts ++ t :: after).map .token ++ .fault e' :: rest := by simp [heq]
    have hlt := hfirst _ e' ⟨ts ++ t :: after, rest, hall, rfl⟩
    cases after with
    | nil => simp at hlt
    | cons next after =>
      obtain hfeed | ⟨d, hfeed, rfl⟩ := hout.feed hplain (next :: after)
      · exact Datum.parse_of_feed_stop hall hfeed
      · exact Datum.parse_of_feed_stop hall hfeed

/-- A text without any of both is a datum, or ends too early. -/
theorem Datum.parse_of_all_in_place (hfault : ∀ k e, ¬FirstFault (lexemes text) k e)
    (hout : ∀ j e, ¬FirstOutOfPlace (lexemes text) j e) :
    ∃ ts, tokenize text = .ok ts ∧
      ((∃ d, Writes (ts.map Token.kind) d ∧ parse text = .ok d) ∨
        ¬IsDatum ts ∧ parse text = .error
          (.unexpectedEnd (if ts = [] then .expression else .closeParen))) := by
  obtain ⟨ts, hts⟩ | ⟨ts, e, rest, hts⟩ := eq_tokens_or_exists_fault (lexemes text)
  · have hok := tokenize_eq_ok_iff.2 hts
    refine ⟨ts, hok, ?_⟩
    obtain ⟨before, t, after, e, rfl, h⟩ | hopen | ⟨d, hd⟩ := outOfPlace_or_unclosed_or_isDatum ts
    · exact absurd ⟨before, t, after.map .token, by simp [hts], rfl, h⟩ (hout before.length e)
    · obtain ⟨stack, hstack, hfeed⟩ := hopen.feed (dot_not_mem_of_tokenize hok) []
      rw [List.append_nil] at hfeed
      have hparse : parse text = .error (.unexpectedEnd (missingAtEnd stack)) := by
        rw [parse_of_tokens hts, hfeed]
        rfl
      refine .inr ⟨fun ⟨d, hd⟩ => ?_, ?_⟩
      · cases hparse.symm.trans (hd.parse hok)
      · rw [hparse]
        cases stack with
        | nil => rw [if_pos (hstack.1 rfl), missingAtEnd]
        | cons l stack =>
          rw [if_neg (hstack.not.1 (List.cons_ne_nil l stack)), missingAtEnd]
    · exact .inl ⟨d, hd, hd.parse hok⟩
  · exact absurd ⟨ts, rest, hts, rfl⟩ (hfault ts.length e)

end First

/-- Of the first fault, with the number `k`, and the first token out of place, with
    the number `j`, the fault is reported if `k ≤ j + 1`, and the token otherwise. A
    text with none of both is a datum, or ends too early. There is one first fault
    at most, and one first token out of place. -/
theorem parse_decided_by_lookahead (text : String) :
    (∀ k e, FirstFault (lexemes text) k e →
      (∀ j e', FirstOutOfPlace (lexemes text) j e' → k ≤ j + 1) →
        Datum.parse text = .error (.lexical e)) ∧
    (∀ j e, FirstOutOfPlace (lexemes text) j e →
      (∀ k e', FirstFault (lexemes text) k e' → j + 1 < k) → Datum.parse text = .error e) ∧
    ((∀ k e, ¬FirstFault (lexemes text) k e) → (∀ j e, ¬FirstOutOfPlace (lexemes text) j e) →
      ∃ ts, tokenize text = .ok ts ∧
        ((∃ d, Writes (ts.map Token.kind) d ∧ Datum.parse text = .ok d) ∨
          ¬IsDatum ts ∧ Datum.parse text = .error
            (.unexpectedEnd (if ts = [] then .expression else .closeParen)))) ∧
    (∀ k k' e e', FirstFault (lexemes text) k e → FirstFault (lexemes text) k' e' →
      k = k' ∧ e = e') ∧
    ∀ j j' e e', FirstOutOfPlace (lexemes text) j e → FirstOutOfPlace (lexemes text) j' e' →
      j = j' ∧ e = e' :=
  ⟨fun _ _ => FirstFault.parse, fun _ _ => FirstOutOfPlace.parse, Datum.parse_of_all_in_place,
    fun _ _ _ _ => FirstFault.unique, fun _ _ _ _ => FirstOutOfPlace.unique⟩

/-- A fault hides the quote mark right before it, and none with a token in between. -/
theorem parse_decided_by_lookahead_quote :
    Datum.parse "(\x27@" = .error (.lexical ⟨.strayCharacter '@', 2, 3⟩) ∧
      Datum.parse "(\x27a @" = .error (.quoteMark ⟨1, 2⟩) := by
  have hopen : OutOfPlace [⟨.openParen, 0, 1⟩] ⟨.quote, 1, 2⟩ (.quoteMark ⟨1, 2⟩) :=
    .quoteMark (.cons .nil rfl (List.forall_mem_nil _)) rfl
  constructor
  · have hlexemes : lexemes "(\x27@" = [.token ⟨.openParen, 0, 1⟩, .token ⟨.quote, 1, 2⟩,
        .fault ⟨.strayCharacter '@', 2, 3⟩] := by cbv
    obtain ⟨hfault, -, -, -, hunique⟩ := parse_decided_by_lookahead "(\x27@"
    have hplace : FirstOutOfPlace (lexemes "(\x27@") 1 (.quoteMark ⟨1, 2⟩) :=
      ⟨[⟨.openParen, 0, 1⟩], ⟨.quote, 1, 2⟩, _, hlexemes, rfl, hopen⟩
    refine hfault 2 _ ⟨[⟨.openParen, 0, 1⟩, ⟨.quote, 1, 2⟩], [], hlexemes, rfl⟩ fun j e' h => ?_
    rw [← (hunique _ _ _ _ hplace h).1]
  · have hlexemes : lexemes "(\x27a @" = [.token ⟨.openParen, 0, 1⟩, .token ⟨.quote, 1, 2⟩,
        .token ⟨.symbol "a", 2, 3⟩, .fault ⟨.strayCharacter '@', 4, 5⟩] := by cbv
    obtain ⟨-, hplace, -, hunique, -⟩ := parse_decided_by_lookahead "(\x27a @"
    have hfault : FirstFault (lexemes "(\x27a @") 3 ⟨.strayCharacter '@', 4, 5⟩ :=
      ⟨[⟨.openParen, 0, 1⟩, ⟨.quote, 1, 2⟩, ⟨.symbol "a", 2, 3⟩], [], hlexemes, rfl⟩
    refine hplace 1 _ ⟨[⟨.openParen, 0, 1⟩], ⟨.quote, 1, 2⟩, _, hlexemes, rfl, hopen⟩ fun k e' h => ?_
    rw [← (hunique _ _ _ _ hfault h).1]
    decide

end SmallScheme
