import SmallScheme.Proofs.Reader.Splitting

/-!
# The lexical grammar

How a text is written when it is a row of tokens, said without the lexer: it is *split*
into a first gap and lexemes that spell tokens, each followed by a gap of its own.

The lexer accepts exactly the texts that can be split so, and yields the tokens that
the lexemes spell, each at the place of its lexeme. There is one way at most to
split a text, with or without faults (`Splitting.Make.unique`).
-/

namespace SmallScheme

open Text

/-- After `before`, the pieces spell one token each, at the place where they are. -/
inductive Piece.Spell : List Char → List Piece → List Token → Prop
  | nil (before : List Char) : Spell before [] []
  | cons {before lexeme gap : List Char} {k : TokenKind} {pieces : List Piece} {ts : List Token}
      (hlexeme : Spells lexeme (gap ++ join pieces) k) (hgap : Gap gap (join pieces))
      (hrest : Spell (before ++ lexeme ++ gap) pieces ts) :
      Spell before (⟨lexeme, gap⟩ :: pieces)
        (⟨k, utf8Length before, utf8Length (before ++ lexeme)⟩ :: ts)

/-- The splitting is one of `cs`, and spells the tokens `ts`. -/
structure Splitting.Spell (s : Splitting) (cs : List Char) (ts : List Token) : Prop where
  /-- Nothing is lost. -/
  join_eq : cs = s.lead ++ Piece.join s.pieces
  /-- The text begins with a gap. -/
  gap : Gap s.lead (Piece.join s.pieces)
  /-- What follows are the tokens. -/
  pieces : Piece.Spell s.lead s.pieces ts

/-! ## The lexer and the grammar -/

section Lexer

variable {before cs : List Char} {pieces : List Piece} {ts : List Token}

/-- Pieces that make tokens only spell them. -/
theorem Piece.make_map_token_iff : Make before pieces (ts.map .token) ↔ Spell before pieces ts := by
  constructor
  · intro h
    generalize hls : ts.map Lexeme.token = ls at h
    induction h generalizing ts with
    | nil =>
      obtain rfl := List.map_eq_nil_iff.1 hls
      exact .nil _
    | cons hlexeme hgap _ ih =>
      obtain ⟨t, ts, rfl, ht, hts⟩ := List.map_eq_cons_iff.1 hls
      cases hlexeme with
      | token hlexeme =>
        cases ht
        exact .cons hlexeme hgap (ih hts)
      | fault => cases ht
  · intro h
    induction h with
    | nil => exact .nil _
    | cons hlexeme hgap _ ih => exact .cons (.token hlexeme) hgap ih

theorem Splitting.make_map_token_iff {s : Splitting} :
    s.Make cs (ts.map .token) ↔ s.Spell cs ts :=
  ⟨fun h => ⟨h.join_eq, h.gap, Piece.make_map_token_iff.1 h.pieces⟩,
    fun h => ⟨h.join_eq, h.gap, Piece.make_map_token_iff.2 h.pieces⟩⟩

/-- A text has tokens if it can be split without faults. -/
theorem tokenize_eq_ok_iff_spell {text : String} :
    tokenize text = .ok ts ↔ ∃ s : Splitting, s.Spell text.toList ts := by
  rw [tokenize_eq_ok_iff, ← exists_make_iff]
  exact exists_congr fun _ => Splitting.make_map_token_iff

theorem Splitting.Spell.unique {s s' : Splitting} {ts' : List Token} (h : s.Spell cs ts)
    (h' : s'.Spell cs ts') : s = s' :=
  (make_map_token_iff.2 h).unique (make_map_token_iff.2 h')

end Lexer

/-! ## Where the tokens are -/

section Places

variable {text : String} {before : List Char} {pieces : List Piece} {ts : List Token}

/-- Every token is where its lexeme is. -/
theorem Piece.Spell.exists_span (h : Spell before pieces ts) {t : Token} (ht : t ∈ ts) :
    ∃ pre l post, l ≠ [] ∧ before ++ join pieces = pre ++ l ++ post ∧
      t.span = ⟨utf8Length pre, utf8Length (pre ++ l)⟩ ∧ utf8Length before ≤ t.span.start := by
  induction h with
  | nil => cases ht
  | @cons before lexeme gap k pieces ts hlexeme _ _ ih =>
    rw [join_cons]
    rcases List.mem_cons.1 ht with rfl | ht
    · exact ⟨before, lexeme, gap ++ join pieces, hlexeme.ne_nil, (List.append_assoc ..).symm, rfl,
        Nat.le_refl _⟩
    · obtain ⟨pre, l, post, hl, heq, hspan, hle⟩ := ih ht
      refine ⟨pre, l, post, hl, by simpa using heq, hspan, Nat.le_trans ?_ hle⟩
      simp only [utf8Length_append]
      omega

theorem Piece.Spell.pairwise (h : Spell before pieces ts) :
    ts.Pairwise fun t u => t.span.stop ≤ u.span.start := by
  induction h with
  | nil => exact .nil
  | cons _ _ hpieces ih =>
    refine .cons (fun u hu => ?_) ih
    obtain ⟨-, -, -, -, -, -, hle⟩ := hpieces.exists_span hu
    refine Nat.le_trans ?_ hle
    simp only [utf8Length_append]
    omega

theorem utf8Length_pos {cs : List Char} (h : cs ≠ []) : 0 < utf8Length cs := by
  obtain ⟨c, cs, rfl⟩ := List.exists_cons_of_ne_nil h
  have := c.utf8Size_pos
  rw [utf8Length_cons]
  omega

/-- A text has tokens exactly if it can be split, and then in one way only; the
    tokens are those that the lexemes spell. Their spans are not empty, lie in the
    text, begin and end between characters, and follow one another. -/
theorem tokenize_iff_unique_splitting (text : String) :
    (∀ ts, tokenize text = .ok ts ↔ ∃ s : Splitting, s.Spell text.toList ts) ∧
      (∀ (s s' : Splitting) (ts ts' : List Token), s.Spell text.toList ts →
        s'.Spell text.toList ts' → s = s' ∧ ts = ts') ∧
      ∀ ts, tokenize text = .ok ts →
        (∀ t ∈ ts, t.span.start < t.span.stop ∧ t.span.stop ≤ utf8Length text.toList ∧
          ∃ before l after, text.toList = before ++ l ++ after ∧
            t.span = ⟨utf8Length before, utf8Length (before ++ l)⟩) ∧
        ts.Pairwise fun t u => t.span.stop ≤ u.span.start := by
  refine ⟨fun ts => tokenize_eq_ok_iff_spell, fun s s' ts ts' h h' => ?_, fun ts hts => ?_⟩
  · have hts : .ok ts = tokenize text := (tokenize_eq_ok_iff_spell.2 ⟨s, h⟩).symm
    have hts' : tokenize text = .ok ts' := tokenize_eq_ok_iff_spell.2 ⟨s', h'⟩
    exact ⟨h.unique h', Except.ok.inj (hts.trans hts')⟩
  · obtain ⟨s, hs⟩ := tokenize_eq_ok_iff_spell.1 hts
    refine ⟨fun t ht => ?_, hs.pieces.pairwise⟩
    obtain ⟨before, l, after, hl, heq, hspan, -⟩ := hs.pieces.exists_span ht
    rw [← hs.join_eq] at heq
    have hpos := utf8Length_pos hl
    refine ⟨?_, ?_, before, l, after, heq, hspan⟩
    · rw [hspan]
      simp only [utf8Length_append]
      omega
    · rw [hspan, heq]
      simp only [utf8Length_append]
      omega

/-- Tokens without anything between them, a comment of two-byte characters, and an
    integer with leading zeros. -/
theorem tokenize_iff_unique_splitting_adjacent :
    ∃ ts, tokenize "-x12 ;é\n\x27007." = .ok ts ∧
      ts.map Token.span = [⟨0, 1⟩, ⟨1, 4⟩, ⟨9, 10⟩, ⟨10, 13⟩, ⟨13, 14⟩] ∧
      (∃ s : Splitting, s.Spell "-x12 ;é\n\x27007.".toList ts) ∧
      ts.Pairwise fun t u => t.span.stop ≤ u.span.start := by
  have h : tokenize "-x12 ;é\n\x27007." = .ok
      [⟨.symbol "-", 0, 1⟩, ⟨.symbol "x12", 1, 4⟩, ⟨.quote, 9, 10⟩,
        ⟨.integer ⟨7, by decide⟩, 10, 13⟩, ⟨.dot, 13, 14⟩] := by cbv
  obtain ⟨hsplit, -, hplaces⟩ := tokenize_iff_unique_splitting "-x12 ;é\n\x27007."
  exact ⟨_, h, rfl, (hsplit _).1 h, (hplaces _ h).2⟩

end Places

end SmallScheme
