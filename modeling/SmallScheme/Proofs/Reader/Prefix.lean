import SmallScheme.Proofs.Reader.Lexis
import SmallScheme.Proofs.Reader.Lookahead

/-!
# Texts cut short

What becomes of a text that is a datum when it is cut off at any character. The
cut may fall into a gap, which is then a shorter gap, or into a lexeme. The only
lexemes with more than one character are integers and symbols, and what is left
of one is an integer or a symbol too: a sign that has lost its digits is a symbol.
So the text cut short has tokens again, the same as before but perhaps for the
last one (`CutShort`).

No token of the whole is out of place, and whether one is depends only on the
tokens before it. The last token may have become another one, but an integer or a
symbol may stand wherever any token may, except after a datum. So no token is out
of place in what is left: it is a datum, or ends too early (`parse_of_isPrefix`).
-/

namespace SmallScheme

open Text

/-- An integer or a symbol. -/
def TokenKind.IsAtom : TokenKind → Prop
  | integer _ | symbol _ => True
  | openParen | closeParen | quote | dot => False

/-- What is left of tokens when their text is cut short: the first of them, and
    perhaps an integer or a symbol in the place of the next. -/
inductive CutShort : List Token → List Token → Prop
  | nil (ts : List Token) : CutShort ts []
  | atom (t : Token) (ts : List Token) {t' : Token} (ht' : t'.kind.IsAtom) : CutShort (t :: ts) [t']
  | cons (t : Token) {ts left : List Token} (h : CutShort ts left) : CutShort (t :: ts) (t :: left)

/-! ## Gaps -/

section Cutting

variable {front cut g rest rest' l : List Char} {k : TokenKind}

theorem forall_head?_of_isPrefix {p : Char → Prop} (hrest : rest' <+: rest)
    (h : ∀ c ∈ rest.head?, p c) : ∀ c ∈ rest'.head?, p c := by
  obtain ⟨cut, rfl⟩ := hrest
  cases rest' with
  | nil => exact fun _ hc => by cases hc
  | cons c rest' => exact h

/-- A gap stays one if less comes after it, -/
theorem Gap.of_isPrefix (h : Gap g rest) (hrest : rest' <+: rest) : Gap g rest' := by
  induction h with
  | nil => exact .nil rest'
  | blank hc _ ih => exact .blank hc (ih hrest)
  | comment hcomment hend _ ih =>
    refine .comment hcomment (forall_head?_of_isPrefix ?_ hend) (ih hrest)
    exact (List.prefix_append_right_inj _).2 hrest

/-- and at the end of the text its first part is one. -/
theorem Gap.of_append (h : Gap (front ++ cut) rest) : Gap front [] := by
  generalize hg : front ++ cut = g at h
  induction h generalizing front with
  | nil =>
    rw [(List.append_eq_nil_iff.1 hg).1]
    exact .nil []
  | blank hc _ ih =>
    cases front with
    | nil => exact .nil []
    | cons d front =>
      obtain ⟨rfl, hchars⟩ := List.cons.inj hg
      exact .blank hc (ih hchars)
  | @comment comment g rest hcomment hend _ ih =>
    cases front with
    | nil => exact .nil []
    | cons d front =>
      obtain ⟨rfl, hchars⟩ := List.cons.inj hg
      obtain ⟨as, rfl, -⟩ | ⟨bs, rfl, hgap⟩ := List.append_eq_append_iff.1 hchars
      · -- The cut falls into the comment, which now ends the text.
        rw [← List.append_nil (';' :: front)]
        refine .comment (fun c hc => hcomment c (List.mem_append_left _ hc)) ?_ (.nil [])
        exact fun _ hc => by cases hc
      · refine .comment hcomment ?_ (ih hgap.symm)
        rw [hgap, List.append_assoc] at hend
        exact forall_head?_of_isPrefix (by simp) hend

/-! ## Lexemes -/

/-- A lexeme stays one if less comes after it. -/
theorem Spells.of_isPrefix (h : Spells l rest k) (hrest : rest' <+: rest) : Spells l rest' k := by
  cases h with
  | openParen => exact .openParen rest'
  | closeParen => exact .closeParen rest'
  | quote => exact .quote rest'
  | dot => exact .dot rest'
  | number hsign hne hdigits hn hend =>
    exact .number hsign hne hdigits hn (forall_head?_of_isPrefix hrest hend)
  | sign hc hend => exact .sign hc (forall_head?_of_isPrefix hrest hend)
  | symbol hc htail hend => exact .symbol hc htail (forall_head?_of_isPrefix hrest hend)

theorem ofDigitChars_le_append (digits more : List Char) :
    Nat.ofDigitChars 10 digits 0 ≤ Nat.ofDigitChars 10 (digits ++ more) 0 := by
  calc Nat.ofDigitChars 10 digits 0
    _ ≤ 10 ^ more.length * Nat.ofDigitChars 10 digits 0 := Nat.le_mul_of_pos_left _ (by positivity)
    _ ≤ 10 ^ more.length * Nat.ofDigitChars 10 digits 0 + Nat.ofDigitChars 10 more 0 :=
      Nat.le_add_right _ _
    _ = Nat.ofDigitChars 10 (digits ++ more) 0 := by
      rw [Nat.ofDigitChars_append, ← Nat.ofDigitChars_eq_ofDigitChars_zero]

/-- Fewer digits write a smaller number, which fits if the greater one does. -/
theorem exists_fixnum_of_append {sign digits more : List Char} {n : Fixnum}
    (hn : n.toInt = signed sign (digits ++ more)) : ∃ m : Fixnum, m.toInt = signed sign digits := by
  have hle := ofDigitChars_le_append digits more
  obtain ⟨hlow, hhigh⟩ := n.inRange
  rw [hn] at hlow hhigh
  refine ⟨⟨signed sign digits, ?_⟩, rfl⟩
  unfold signed at hlow hhigh ⊢
  split at hlow
  · rename_i hsign
    rw [if_pos hsign] at hhigh ⊢
    omega
  · rename_i hsign
    rw [if_neg hsign] at hhigh ⊢
    omega

/-- At the end of the text, what is left of a lexeme is an integer or a symbol. -/
theorem Spells.of_append (h : Spells (front ++ cut) rest k) (hfront : front ≠ [])
    (hcut : cut ≠ []) : ∃ k', Spells front [] k' ∧ k'.IsAtom := by
  have hend : ∀ (p : Char → Prop), ∀ c ∈ ([] : List Char).head?, p c := fun _ _ hc => by cases hc
  -- A single character can not be cut.
  have hone : ∀ c, front ++ cut ≠ [c] := by
    intro c hc
    obtain ⟨hnil, -⟩ | ⟨-, hnil⟩ := List.append_eq_singleton_iff.1 hc
    · exact hfront hnil
    · exact hcut hnil
  generalize hl : front ++ cut = l at h hone
  cases h with
  | openParen | closeParen | quote | dot | sign => exact absurd rfl (hone _)
  | @number sign digits _ n hsign hne hdigits hn _ =>
    -- All digits may be cut off, and then the sign is left.
    have hlone : front = sign → ∃ k', Spells front [] k' ∧ k'.IsAtom := by
      rintro rfl
      rcases hsign with rfl | rfl | rfl
      · exact absurd rfl hfront
      · exact ⟨_, .sign (.inl rfl) (hend _), trivial⟩
      · exact ⟨_, .sign (.inr rfl) (hend _), trivial⟩
    obtain ⟨as, rfl, -⟩ | ⟨bs, rfl, rfl⟩ := List.append_eq_append_iff.1 hl
    · have hnil : as = [] := by
        rcases hsign with hsign | hsign | hsign
        · exact (List.append_eq_nil_iff.1 hsign).2
        · exact ((List.append_eq_singleton_iff.1 hsign).resolve_left fun h => hfront h.1).2
        · exact ((List.append_eq_singleton_iff.1 hsign).resolve_left fun h => hfront h.1).2
      exact hlone (by rw [hnil, List.append_nil])
    · by_cases hbs : bs = []
      · exact hlone (by rw [hbs, List.append_nil])
      · obtain ⟨m, hm⟩ := exists_fixnum_of_append hn
        have hdigits' : ∀ d ∈ bs, d.isDigit := fun d hd => hdigits d (List.mem_append_left _ hd)
        exact ⟨_, .number hsign hbs hdigits' hm (hend _), trivial⟩
  | @symbol c tail _ hc htail _ =>
    obtain ⟨d, front, rfl⟩ := List.exists_cons_of_ne_nil hfront
    obtain ⟨rfl, rfl⟩ := List.cons.inj hl
    exact ⟨_, .symbol hc (fun d hd => htail d (List.mem_append_left _ hd)) (hend _), trivial⟩

/-! ## Splittings -/

/-- A row of pieces is cut into a row of pieces. -/
theorem Piece.Spell.of_append {before : List Char} {pieces : List Piece} {ts : List Token}
    (h : Spell before pieces ts) (hjoin : join pieces = front ++ cut) :
    ∃ pieces' left, join pieces' = front ∧ Spell before pieces' left ∧ CutShort ts left := by
  induction h generalizing front with
  | nil before =>
    obtain rfl := (List.append_eq_nil_iff.1 hjoin.symm).1
    exact ⟨[], [], rfl, .nil before, .nil []⟩
  | @cons before lexeme gap k pieces ts hlexeme hgap _ ih =>
    rw [join_cons] at hjoin
    -- A cut after the lexeme leaves it, with what is left of the gap.
    have hafter : ∀ g more, gap = g ++ more → ∃ pieces' left, join pieces' = lexeme ++ g ∧
        Spell before pieces' left ∧ CutShort
          (⟨k, utf8Length before, utf8Length (before ++ lexeme)⟩ :: ts) left := by
      rintro g more rfl
      refine ⟨[⟨lexeme, g⟩], _, by simp [join], .cons ?_ hgap.of_append (.nil _), .cons _ (.nil ts)⟩
      exact hlexeme.of_isPrefix (by simp [join])
    obtain ⟨as, rfl, hrest⟩ | ⟨bs, rfl, -⟩ := List.append_eq_append_iff.1 hjoin
    · obtain ⟨more, rfl, hmore⟩ | ⟨g, rfl, -⟩ := List.append_eq_append_iff.1 hrest
      · obtain ⟨pieces', left, rfl, hspell, hleft⟩ := ih hmore
        have hless : join pieces' <+: join pieces := ⟨cut, hmore.symm⟩
        refine ⟨⟨lexeme, gap⟩ :: pieces', _, join_cons .., .cons ?_ ?_ hspell, hleft.cons _⟩
        · exact hlexeme.of_isPrefix ((List.prefix_append_right_inj _).2 hless)
        · exact hgap.of_isPrefix hless
      · exact hafter _ _ rfl
    · by_cases hbs : bs = []
      · subst hbs
        simpa using hafter [] gap rfl
      by_cases hfront : front = []
      · subst hfront
        exact ⟨[], [], rfl, .nil before, .nil _⟩
      · obtain ⟨k', hk', hatom⟩ := hlexeme.of_append hfront hbs
        exact ⟨[⟨front, []⟩], _, by simp [join], .cons hk' (.nil []) (.nil _), .atom _ ts hatom⟩

/-- A text that has tokens has them still when it is cut short. -/
theorem tokenize_of_isPrefix {text short : String} {ts : List Token} (h : tokenize text = .ok ts)
    (hshort : short.toList <+: text.toList) :
    ∃ left, tokenize short = .ok left ∧ CutShort ts left := by
  obtain ⟨⟨lead, pieces⟩, hspell⟩ := tokenize_eq_ok_iff_spell.1 h
  obtain ⟨cut, hcut⟩ := hshort
  have hjoin : short.toList ++ cut = lead ++ Piece.join pieces := hcut.trans hspell.join_eq
  obtain ⟨more, hlead, -⟩ | ⟨front, hfront, hrest⟩ := List.append_eq_append_iff.1 hjoin
  · have hgap : Gap short.toList [] := Gap.of_append (hlead ▸ hspell.gap)
    exact ⟨[], tokenize_eq_ok_iff_spell.2 ⟨⟨short.toList, []⟩, by simp [Piece.join], hgap, .nil _⟩,
      .nil ts⟩
  · obtain ⟨pieces', left, rfl, hpieces, hleft⟩ := hspell.pieces.of_append hrest
    have hgap : Gap lead (Piece.join pieces') := hspell.gap.of_isPrefix ⟨cut, hrest.symm⟩
    exact ⟨left, tokenize_eq_ok_iff_spell.2 ⟨⟨lead, pieces'⟩, hfront, hgap, hpieces⟩, hleft⟩

end Cutting

/-! ## Data -/

/-- What is left of the tokens is what was there, or an integer or a symbol in the
    place of something that was. -/
theorem CutShort.exists_eq_append {ts left before after : List Token} {t : Token}
    (h : CutShort ts left) (hleft : left = before ++ t :: after) :
    ∃ t' after', ts = before ++ t' :: after' ∧ (t = t' ∨ t.kind.IsAtom) := by
  induction h generalizing before with
  | nil => simp at hleft
  | @atom t' ts last hlast =>
    obtain ⟨rfl, hone⟩ | ⟨-, hnil⟩ := List.append_eq_singleton_iff.1 hleft.symm
    · obtain ⟨rfl, -⟩ := List.cons.inj hone
      exact ⟨t', ts, rfl, .inr hlast⟩
    · cases hnil
  | @cons t' ts left _ ih =>
    cases before with
    | nil =>
      obtain ⟨rfl, -⟩ := List.cons.inj hleft
      exact ⟨t', ts, rfl, .inl rfl⟩
    | cons first before =>
      obtain ⟨rfl, hrest⟩ := List.cons.inj hleft
      obtain ⟨t'', after', rfl, ht⟩ := ih hrest
      exact ⟨t'', after', rfl, ht⟩

/-- An integer or a symbol is out of place only after a datum. -/
theorem OutOfPlace.isDatum {before : List Token} {t : Token} {e : ReadError}
    (h : OutOfPlace before t e) (ht : t.kind.IsAtom) : IsDatum before := by
  cases h with
  | quoteMark _ hkind | unopened hkind => exact absurd ht (by simp [hkind, TokenKind.IsAtom])
  | misplacedDot _ _ _ _ _ _ _ hkind => exact absurd ht (by simp [hkind, TokenKind.IsAtom])
  | surplus _ hbefore => exact hbefore

theorem not_firstFault_of_tokenize {text : String} {ts : List Token} (h : tokenize text = .ok ts) :
    ∀ k e, ¬FirstFault (lexemes text) k e := by
  rintro k e ⟨before, rest, heq, -⟩
  rw [tokenize_eq_ok_iff.1 h] at heq
  have hmem : Lexeme.fault e ∈ ts.map Lexeme.token := by simp [heq]
  simp at hmem

/-- In a text that is a datum, no token is out of place. -/
theorem not_outOfPlace_of_parse {text : String} {d : Datum} {ts before after : List Token}
    {t : Token} {e : ReadError} (h : Datum.parse text = .ok d) (hts : tokenize text = .ok ts)
    (hsplit : ts = before ++ t :: after) : ¬OutOfPlace before t e := by
  intro hout
  have hfirst : FirstOutOfPlace (lexemes text) before.length e :=
    ⟨before, t, after.map .token, by simp [tokenize_eq_ok_iff.1 hts, hsplit], rfl, hout⟩
  have hparse := hfirst.parse fun k e' hfault => absurd hfault (not_firstFault_of_tokenize hts k e')
  cases h.symm.trans hparse

/-- However a datum is cut short, what is left is a datum, or ends too early. -/
theorem parse_of_isPrefix {text short : String} {d : Datum} (h : Datum.parse text = .ok d)
    (hshort : short.toList <+: text.toList) :
    (∃ d', Datum.parse short = .ok d') ∨
      ∃ expected, Datum.parse short = .error (.unexpectedEnd expected) := by
  obtain ⟨ts, hts, -⟩ := Datum.parse_eq_ok_iff.1 h
  obtain ⟨left, hleft, hcut⟩ := tokenize_of_isPrefix hts hshort
  have hinplace : ∀ j e, ¬FirstOutOfPlace (lexemes short) j e := by
    rintro j e ⟨before, t, rest, heq, -, hout⟩
    rw [tokenize_eq_ok_iff.1 hleft] at heq
    obtain ⟨before', _, rfl, hbefore, hrest⟩ := List.map_eq_append_iff.1 heq
    obtain ⟨t', after, rfl, ht, -⟩ := List.map_eq_cons_iff.1 hrest
    obtain rfl : t' = t := Lexeme.token.inj ht
    obtain rfl : before' = before :=
      List.map_injective_iff.2 (fun _ _ h => Lexeme.token.inj h) hbefore
    obtain ⟨t'', after', hsplit, rfl | hatom⟩ := hcut.exists_eq_append rfl
    · exact not_outOfPlace_of_parse h hts hsplit hout
    · exact not_outOfPlace_of_parse h hts hsplit (.surplus t'' (hout.isDatum hatom))
  obtain ⟨_, _, ⟨d', _, hparse⟩ | ⟨_, hparse⟩⟩ :=
    Datum.parse_of_all_in_place (not_firstFault_of_tokenize hleft) hinplace
  · exact .inl ⟨d', hparse⟩
  · exact .inr ⟨_, hparse⟩

/-- The cut falls between the sign and the digits of a tail, which leaves a symbol
    there and the list open. -/
theorem parse_of_isPrefix_sign :
    (∃ d, Datum.parse "(a . -12)" = .ok d) ∧ "(a . -".toList <+: "(a . -12)".toList ∧
      ∃ expected, Datum.parse "(a . -" = .error (.unexpectedEnd expected) := by
  have hparse : Datum.parse "(a . -12)" =
      .ok (.pair (.symbol "a") (.integer ⟨-12, by decide⟩)) := by cbv
  have hshort : "(a . -".toList <+: "(a . -12)".toList := by decide
  refine ⟨⟨_, hparse⟩, hshort, (parse_of_isPrefix hparse hshort).resolve_left ?_⟩
  rintro ⟨d', hd'⟩
  have hopen : Datum.parse "(a . -" = .error (.unexpectedEnd .closeParen) := by cbv
  cases hd'.symm.trans hopen

end SmallScheme
