import SmallScheme.Proofs.Reader.Lexeme

/-!
# Splitting a text

A text is a gap, and then lexemes, each with a gap after it. Not all of them are tokens.
Here the grammar says what the others are (`Misspells`): a number that no fixnum holds,
a symbol with a character in it that may not continue one, which is the one reported,
or a character that starts nothing at all.

With them, there is a splitting of every text, and its lexemes are those that the
lexer finds, each at its place (`exists_make_iff`). There is no other: the next
character says whether a gap or a lexeme goes on here, and every lexeme is as long as
it can be (`existsUnique_make_iff`).
-/

namespace SmallScheme

open Text

/-- Neither a gap nor a token starts with this character. -/
def StartsNothing (c : Char) : Prop :=
  isDelimiter c = false ∧ c ≠ '.' ∧ c.isDigit = false ∧ isSign c = false ∧
    isSymbolStart c = false

/-- The characters of a lexeme spell no token if `rest` comes next, and this is why. -/
inductive Misspells : List Char → List Char → LexicalFault → Prop
  | number {sign digits rest : List Char} (hsign : sign = [] ∨ sign = ['+'] ∨ sign = ['-'])
      (hne : digits ≠ []) (hdigits : ∀ d ∈ digits, d.isDigit)
      (hn : ∀ n : Fixnum, n.toInt ≠ signed sign digits)
      (hend : ∀ d ∈ rest.head?, d.isDigit = false) :
      Misspells (sign ++ digits) rest (.integerTooLarge (String.ofList (sign ++ digits)))
  /-- A symbol goes on up to a delimiter, and `bad` is the first character that may
      not stand in it. -/
  | symbol {c bad : Char} {front back rest : List Char} (hc : isSymbolStart c)
      (hfront : ∀ d ∈ front, isSymbolContinue d) (hbad : isSymbolContinue bad = false)
      (hback : ∀ d ∈ bad :: back, isDelimiter d = false) (hend : ∀ d ∈ rest.head?, isDelimiter d) :
      Misspells (c :: (front ++ bad :: back)) rest (.strayCharacter bad)
  | character {c : Char} (rest : List Char) (hc : StartsNothing c) :
      Misspells [c] rest (.strayCharacter c)

/-- After `before`, the characters of a lexeme make this lexeme if `rest` comes next. -/
inductive Makes (before : List Char) : List Char → List Char → Lexeme → Prop
  | token {l rest : List Char} {k : TokenKind} (h : Spells l rest k) :
      Makes before l rest (.token ⟨k, utf8Length before, utf8Length (before ++ l)⟩)
  | fault {l rest : List Char} {f : LexicalFault} (h : Misspells l rest f) :
      Makes before l rest (.fault ⟨f, utf8Length before, utf8Length (before ++ l)⟩)

/-- After `before`, the pieces make one lexeme each, at the place where they are. -/
inductive Piece.Make : List Char → List Piece → List Lexeme → Prop
  | nil (before : List Char) : Make before [] []
  | cons {before lexeme gap : List Char} {l : Lexeme} {pieces : List Piece} {ls : List Lexeme}
      (hlexeme : Makes before lexeme (gap ++ join pieces) l) (hgap : Gap gap (join pieces))
      (hrest : Make (before ++ lexeme ++ gap) pieces ls) :
      Make before (⟨lexeme, gap⟩ :: pieces) (l :: ls)

/-- The splitting is one of `cs`, and makes the lexemes `ls`. -/
structure Splitting.Make (s : Splitting) (cs : List Char) (ls : List Lexeme) : Prop where
  /-- Nothing is lost. -/
  join_eq : cs = s.lead ++ Piece.join s.pieces
  /-- The text begins with a gap. -/
  gap : Gap s.lead (Piece.join s.pieces)
  /-- What follows are the lexemes. -/
  pieces : Piece.Make s.lead s.pieces ls

/-! ## The faulty lexeme at a place -/

section Lexeme

variable {c : Char} {l tail rest : List Char} {f : LexicalFault}

theorem ofLexeme_of_too_large (hc : c.isDigit ∨ isSign c ∧ tail ≠ [])
    (hn : ∀ n : Fixnum, n.toInt ≠ integerOf c tail) :
    TokenKind.ofLexeme c tail = .error (.integerTooLarge (String.ofList (c :: tail))) := by
  have hnone : Fixnum.ofInt? (integerOf c tail) = none :=
    Option.eq_none_iff_forall_ne_some.2 fun n h => hn n (Fixnum.toInt_of_ofInt? h)
  rw [ofLexeme_of_number hc, hnone]

theorem ofLexeme_of_stray {bad : Char} {front back : List Char} (hc : isSymbolStart c)
    (hfront : ∀ d ∈ front, isSymbolContinue d) (hbad : isSymbolContinue bad = false) :
    TokenKind.ofLexeme c (front ++ bad :: back) = .error (.strayCharacter bad) := by
  have hfind : (front ++ bad :: back).find? (fun d => !isSymbolContinue d) = some bad :=
    List.find?_eq_some_iff_append.2 ⟨by simp [hbad], front, back, rfl, by simpa using hfront⟩
  rw [ofLexeme_of_isSymbolStart hc, hfind]

theorem Misspells.ne_nil (h : Misspells l rest f) : l ≠ [] := by
  cases h with
  | number _ hne _ _ _ => exact List.append_ne_nil_of_right_ne_nil _ hne
  | symbol | character => exact List.cons_ne_nil _ _

/-- The lexer finds a faulty lexeme of the grammar, and why it is one. -/
theorem Misspells.ofLexeme (h : Misspells (c :: tail) rest f) :
    isBlank c = false ∧ c ≠ ';' ∧ lexemeTail c (tail ++ rest) = tail ∧
      TokenKind.ofLexeme c tail = .error f := by
  generalize hl : c :: tail = l at h
  cases h with
  | number hsign hne hdigits hn hend =>
    obtain ⟨hc, htail, hvalue⟩ := integerOf_of_signed hsign hne hdigits hl.symm
    obtain ⟨hblank, hcomment⟩ := plain_of_isDelimiter (isDelimiter_of_number hc)
    rw [← hl]
    exact ⟨hblank, hcomment,
      (lexemeTail_eq_iff_of_number (hc.imp_right And.left)).2 ⟨htail, hend⟩,
      ofLexeme_of_too_large hc (by rwa [hvalue])⟩
  | symbol hc hfront hbad hback hend =>
    cases hl
    obtain ⟨hblank, hcomment⟩ := plain_of_isDelimiter (isDelimiter_of_isSymbolStart hc)
    refine ⟨hblank, hcomment, (lexemeTail_eq_iff_of_symbol hc).2 ⟨fun d hd => ?_, hend⟩,
      ofLexeme_of_stray hc hfront hbad⟩
    rcases List.mem_append.1 hd with hd | hd
    · exact isDelimiter_of_isSymbolContinue (hfront d hd)
    · exact hback d hd
  | character _ hc =>
    cases hl
    obtain ⟨hdelimiter, hdot, hdigit, hsign, hstart⟩ := hc
    obtain ⟨hblank, hcomment⟩ := plain_of_isDelimiter hdelimiter
    have hmark : c ≠ '(' ∧ c ≠ ')' ∧ c ≠ '\x27' := by
      refine ⟨?_, ?_, ?_⟩ <;>
      · rintro rfl
        cases hdelimiter
    exact ⟨hblank, hcomment, by simp [lexemeTail, hdigit, hsign, hstart],
      by simp [TokenKind.ofLexeme, hmark, hdot, hdigit, hsign, hstart]⟩

/-- Every lexeme that the lexer takes for a fault is one of the grammar. -/
theorem misspells_of_ofLexeme (hblank : isBlank c = false) (hcomment : c ≠ ';')
    (hfault : TokenKind.ofLexeme c tail = .error f) (htail : lexemeTail c (tail ++ rest) = tail) :
    Misspells (c :: tail) rest f := by
  cases takenFor_of_ofLexeme hfault with
  | tooLarge hc hn =>
    obtain ⟨htail, hend⟩ := (lexemeTail_eq_iff_of_number (hc.imp_right And.left)).1 htail
    obtain ⟨sign, digits, hsign, hne, hdigits, heq, hvalue⟩ := exists_signed hc htail
    rw [← heq]
    exact .number hsign hne hdigits (by rwa [hvalue]) hend
  | @stray _ bad front back hc hfront hbad =>
    obtain ⟨hplain, hend⟩ := (lexemeTail_eq_iff_of_symbol hc).1 htail
    exact .symbol hc hfront hbad (fun d hd => hplain d (List.mem_append_right front hd)) hend
  | nothing _ hmark hdigit hsign hstart =>
    obtain ⟨hopen, hclose, hquote, hdot⟩ := hmark
    have hdelimiter : isDelimiter c = false := by
      simp [isDelimiter, hblank, hopen, hclose, hquote, hcomment]
    obtain rfl : [] = tail := by
      rw [← htail]
      simp [lexemeTail, hdigit, hsign, hstart]
    exact .character rest ⟨hdelimiter, hdot, hdigit, hsign, hstart⟩

end Lexeme

/-! ## The lexer and the grammar -/

section Lexer

variable {before l cs rest : List Char} {lexeme : Lexeme} {pieces : List Piece} {ls : List Lexeme}

/-- A lexeme of the grammar starts no gap, is as long as it can be, and is what the lexer
    takes it for. -/
theorem Makes.exists_ofChars (h : Makes before l rest lexeme) :
    ∃ c tail, l = c :: tail ∧ isBlank c = false ∧ c ≠ ';' ∧
      lexemeTail c (tail ++ rest) = tail ∧
        lexeme = Lexeme.ofChars (utf8Length before) c tail := by
  cases h with
  | token h =>
    obtain ⟨c, tail, rfl⟩ := List.exists_cons_of_ne_nil h.ne_nil
    obtain ⟨hblank, hcomment, htail, hkind⟩ := h.ofLexeme
    refine ⟨c, tail, rfl, hblank, hcomment, htail, ?_⟩
    rw [Lexeme.ofChars, hkind, utf8Length_append]
  | fault h =>
    obtain ⟨c, tail, rfl⟩ := List.exists_cons_of_ne_nil h.ne_nil
    obtain ⟨hblank, hcomment, htail, hfault⟩ := h.ofLexeme
    refine ⟨c, tail, rfl, hblank, hcomment, htail, ?_⟩
    rw [Lexeme.ofChars, hfault, utf8Length_append]

/-- What the lexer takes is a lexeme of the grammar. -/
theorem makes_ofChars {c : Char} {tail : List Char} (hblank : isBlank c = false)
    (hcomment : c ≠ ';') (htail : lexemeTail c (tail ++ rest) = tail) :
    Makes before (c :: tail) rest (Lexeme.ofChars (utf8Length before) c tail) := by
  rw [Lexeme.ofChars, ← utf8Length_append]
  cases hkind : TokenKind.ofLexeme c tail with
  | ok k => exact .token (spells_of_ofLexeme hkind htail)
  | error f => exact .fault (misspells_of_ofLexeme hblank hcomment hkind htail)

theorem Makes.lexemesFrom_append (h : Makes before l rest lexeme) :
    lexemesFrom (utf8Length before) (l ++ rest) =
      lexeme :: lexemesFrom (utf8Length (before ++ l)) rest := by
  obtain ⟨c, tail, rfl, hblank, hcomment, htail, rfl⟩ := h.exists_ofChars
  rw [List.cons_append, lexemesFrom, if_neg (by simp [hblank]), if_neg (by simpa using hcomment)]
  simp only [htail, List.drop_left, utf8Length_append]

/-- What makes one lexeme is read as this lexeme, and as nothing else. -/
theorem Makes.tokenize_eq (h : Makes [] l [] lexeme) :
    tokenize (String.ofList l) = lexeme.result.map fun t => [t] := by
  have hone : lexemes (String.ofList l) = [lexeme] := calc
    lexemes (String.ofList l) = lexemesFrom (utf8Length []) (l ++ []) := by
      rw [lexemes, String.toList_ofList, List.append_nil, utf8Length_nil]
    _ = lexeme :: lexemesFrom (utf8Length l) [] := h.lexemesFrom_append
    _ = [lexeme] := by rw [lexemesFrom]
  rw [tokenize, hone]
  cases lexeme with
  | token t => rfl
  | fault e => rfl

theorem Misspells.tokenize_eq {f : LexicalFault} (h : Misspells l [] f) :
    tokenize (String.ofList l) = .error ⟨f, 0, utf8Length l⟩ :=
  (Makes.fault h : Makes [] l [] _).tokenize_eq

theorem Piece.Make.lexemesFrom_join (h : Make before pieces ls) :
    lexemesFrom (utf8Length before) (join pieces) = ls := by
  induction h with
  | nil => rw [join, List.flatMap_nil, lexemesFrom]
  | cons hlexeme hgap _ ih =>
    rw [join_cons, hlexeme.lexemesFrom_append, hgap.lexemesFrom_append, ← utf8Length_append, ih]

/-- What the lexer does to a text is a splitting of the text. -/
theorem Cut.exists_make (h : Cut before cs ls) :
    ∃ lead pieces, cs = lead ++ Piece.join pieces ∧ Gap lead (Piece.join pieces) ∧
      Piece.Make (before ++ lead) pieces ls := by
  induction h with
  | nil before => exact ⟨[], [], rfl, .nil _, .nil _⟩
  | @blank before rest c ls hc _ ih =>
    obtain ⟨lead, pieces, rfl, hlead, hpieces⟩ := ih
    exact ⟨c :: lead, pieces, rfl, .blank hc hlead, by rwa [List.append_cons]⟩
  | @comment before comment rest ls hcomment hend _ ih =>
    obtain ⟨lead, pieces, rfl, hlead, hpieces⟩ := ih
    exact ⟨';' :: comment ++ lead, pieces, (List.append_assoc ..).symm,
      .comment hcomment hend hlead, by rwa [← List.append_assoc]⟩
  | @lexeme before rest tail c ls hblank hcomment htail _ ih =>
    obtain ⟨lead, pieces, rfl, hlead, hpieces⟩ := ih
    refine ⟨[], ⟨c :: tail, lead⟩ :: pieces, by simp [Piece.join], .nil _, ?_⟩
    rw [List.append_nil]
    exact .cons (makes_ofChars hblank hcomment htail) hlead hpieces

/-- Every text can be split, and makes the lexemes that the lexer finds in it. -/
theorem exists_make_iff {text : String} :
    (∃ s : Splitting, s.Make text.toList ls) ↔ lexemes text = ls := by
  constructor
  · rintro ⟨s, hs⟩
    rw [lexemes, hs.join_eq, hs.gap.lexemesFrom_append, Nat.zero_add, hs.pieces.lexemesFrom_join]
  · rintro rfl
    obtain ⟨lead, pieces, hjoin, hgap, hpieces⟩ := (cut_lexemes text).exists_make
    exact ⟨⟨lead, pieces⟩, hjoin, hgap, hpieces⟩

end Lexer

/-! ## One splitting at most -/

section Unique

variable {before before' g g' l l' rest rest' : List Char} {lexeme lexeme' : Lexeme}
  {pieces pieces' : List Piece} {ls ls' : List Lexeme}

/-- No gap begins here. -/
def Plain (rest : List Char) : Prop := ∀ c ∈ rest.head?, isBlank c = false ∧ c ≠ ';'

theorem Makes.plain (h : Makes before l rest lexeme) (cs : List Char) : Plain (l ++ cs) := by
  obtain ⟨c, tail, rfl, hblank, hcomment, -⟩ := h.exists_ofChars
  intro d hd
  cases hd
  exact ⟨hblank, hcomment⟩

theorem Piece.Make.plain (h : Make before pieces ls) : Plain (join pieces) := by
  cases h with
  | nil => exact fun _ hc => by cases hc
  | cons hlexeme _ _ =>
    rw [join_cons]
    exact hlexeme.plain _

theorem Gap.eq_nil_of_plain (h : Gap g rest) (hplain : Plain (g ++ rest)) : g = [] := by
  cases h with
  | nil => rfl
  | blank hc _ => exact absurd hc (by simp [(hplain _ rfl).1])
  | comment => exact absurd rfl (hplain _ rfl).2

/-- A gap goes on up to the next lexeme. -/
theorem Gap.unique (h : Gap g rest) (h' : Gap g' rest') (heq : g ++ rest = g' ++ rest')
    (hplain : Plain rest) (hplain' : Plain rest') : g = g' := by
  induction h generalizing g' with
  | nil =>
    rw [List.nil_append] at heq
    exact (h'.eq_nil_of_plain (heq ▸ hplain)).symm
  | @blank c g rest hc _ ih =>
    cases h' with
    | nil =>
      rw [List.nil_append] at heq
      rw [← heq] at hplain'
      exact absurd hc (by simp [(hplain' _ rfl).1])
    | blank hc' hg' =>
      obtain ⟨rfl, htail⟩ := List.cons.inj heq
      rw [ih hg' htail hplain]
    | comment =>
      obtain ⟨rfl, -⟩ := List.cons.inj heq
      exact absurd hc (by decide)
  | @comment comment g rest hcomment hend _ ih =>
    cases h' with
    | nil =>
      rw [List.nil_append] at heq
      rw [← heq] at hplain'
      exact absurd rfl (hplain' _ rfl).2
    | blank hc' _ =>
      obtain ⟨rfl, -⟩ := List.cons.inj heq
      exact absurd hc' (by decide)
    | @comment comment' g' _ hcomment' hend' hg' =>
      -- Both comments end where their line does.
      have hrest : comment ++ (g ++ rest) = comment' ++ (g' ++ rest') := by
        simpa using heq
      obtain rfl : comment = comment' := by
        rw [← takeWhile_comment hcomment hend, hrest, takeWhile_comment hcomment' hend']
      rw [ih hg' (List.append_cancel_left hrest) hplain]

theorem Makes.unique (h : Makes before l rest lexeme) (h' : Makes before' l' rest' lexeme')
    (heq : l ++ rest = l' ++ rest') : l = l' := by
  obtain ⟨c, tail, rfl, -, -, htail, -⟩ := h.exists_ofChars
  obtain ⟨c', tail', rfl, -, -, htail', -⟩ := h'.exists_ofChars
  obtain ⟨rfl, hchars⟩ := List.cons.inj heq
  have hchars : tail ++ rest = tail' ++ rest' := hchars
  rw [← htail, hchars, htail']

theorem Makes.ne_nil (h : Makes before l rest lexeme) : l ≠ [] := by
  obtain ⟨c, tail, rfl, -⟩ := h.exists_ofChars
  exact List.cons_ne_nil c tail

theorem Piece.Make.unique (h : Make before pieces ls) (h' : Make before' pieces' ls')
    (heq : join pieces = join pieces') : pieces = pieces' := by
  induction h generalizing before' pieces' ls' with
  | nil =>
    cases h' with
    | nil => rfl
    | cons hlexeme' _ _ => exact absurd heq.symm (join_cons_ne_nil hlexeme'.ne_nil)
  | cons hlexeme hgap hpieces ih =>
    cases h' with
    | nil => exact absurd heq (join_cons_ne_nil hlexeme.ne_nil)
    | cons hlexeme' hgap' hpieces' =>
      rw [join_cons, join_cons] at heq
      obtain rfl := hlexeme.unique hlexeme' heq
      have hrest := List.append_cancel_left heq
      obtain rfl := hgap.unique hgap' hrest hpieces.plain hpieces'.plain
      rw [ih hpieces' (List.append_cancel_left hrest)]

theorem Splitting.Make.unique {s s' : Splitting} {cs : List Char} (h : s.Make cs ls)
    (h' : s'.Make cs ls') : s = s' := by
  have heq := h.join_eq.symm.trans h'.join_eq
  obtain ⟨lead, pieces⟩ := s
  obtain ⟨lead', pieces'⟩ := s'
  obtain rfl : lead = lead' := h.gap.unique h'.gap heq h.pieces.plain h'.pieces.plain
  obtain rfl : pieces = pieces' := h.pieces.unique h'.pieces (List.append_cancel_left heq)
  rfl

/-- The one splitting of a text makes the lexemes that the lexer finds. -/
theorem existsUnique_make_iff {text : String} :
    (∃! s : Splitting, s.Make text.toList ls) ↔ lexemes text = ls :=
  ⟨fun h => exists_make_iff.1 h.exists, fun h =>
    existsUnique_of_exists_of_unique (exists_make_iff.2 h) fun _ _ => Splitting.Make.unique⟩

end Unique

end SmallScheme
