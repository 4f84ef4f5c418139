import SmallScheme.Proofs.Reader.Spans

/-!
# Gaps and lexemes

What the parts of a text are, said without the lexer. A *gap* is made of blanks and of
comments; a lexeme spells a token if what comes next does not belong to it as well
(`Spells`). The lexer finds a lexeme of this kind where there is one
(`Spells.ofLexeme`), and finds no other that is a token (`spells_of_ofLexeme`).
-/

namespace SmallScheme

open Text

/-! ## Gaps and lexemes -/

/-- The characters `g` say nothing if `rest` comes next: they are blanks and
    comments, and a comment goes up to the end of its line, or of the text. -/
inductive Gap : List Char → List Char → Prop
  | nil (rest : List Char) : Gap [] rest
  | blank {c : Char} {g rest : List Char} (hc : isBlank c) (hg : Gap g rest) : Gap (c :: g) rest
  | comment {comment g rest : List Char} (hcomment : ∀ c ∈ comment, endsComment c = false)
      (hend : ∀ c ∈ (g ++ rest).head?, endsComment c) (hg : Gap g rest) :
      Gap (';' :: comment ++ g) rest

/-- The integer that digits write after a sign, or after none. -/
def signed (sign digits : List Char) : Int :=
  if sign = ['-'] then -(Nat.ofDigitChars 10 digits 0 : Int) else Nat.ofDigitChars 10 digits 0

/-- The characters of a lexeme spell the token `k` if `rest` comes next. -/
inductive Spells : List Char → List Char → TokenKind → Prop
  | openParen (rest : List Char) : Spells ['('] rest .openParen
  | closeParen (rest : List Char) : Spells [')'] rest .closeParen
  | quote (rest : List Char) : Spells ['\x27'] rest .quote
  | dot (rest : List Char) : Spells ['.'] rest .dot
  | number {sign digits rest : List Char} {n : Fixnum}
      (hsign : sign = [] ∨ sign = ['+'] ∨ sign = ['-']) (hne : digits ≠ [])
      (hdigits : ∀ d ∈ digits, d.isDigit) (hn : n.toInt = signed sign digits)
      (hend : ∀ d ∈ rest.head?, d.isDigit = false) : Spells (sign ++ digits) rest (.integer n)
  | sign {c : Char} {rest : List Char} (hc : c = '+' ∨ c = '-')
      (hend : ∀ d ∈ rest.head?, d.isDigit = false) : Spells [c] rest (.symbol (String.ofList [c]))
  | symbol {c : Char} {tail rest : List Char} (hc : isSymbolStart c)
      (htail : ∀ d ∈ tail, isSymbolContinue d) (hend : ∀ d ∈ rest.head?, isDelimiter d) :
      Spells (c :: tail) rest (.symbol (String.ofList (c :: tail)))

/-- A lexeme with the gap after it. -/
structure Piece where
  /-- The characters of the lexeme. -/
  lexeme : List Char
  /-- The characters up to the next lexeme. -/
  gap : List Char

/-- The characters of one piece after another. -/
def Piece.join (pieces : List Piece) : List Char := pieces.flatMap fun p => p.lexeme ++ p.gap

theorem Piece.join_cons (lexeme gap : List Char) (pieces : List Piece) :
    join (⟨lexeme, gap⟩ :: pieces) = lexeme ++ (gap ++ join pieces) :=
  List.append_assoc ..

theorem Piece.join_cons_ne_nil {lexeme gap : List Char} {pieces : List Piece}
    (h : lexeme ≠ []) : join (⟨lexeme, gap⟩ :: pieces) ≠ [] := by
  rw [join_cons]
  exact List.append_ne_nil_of_left_ne_nil h _

/-- A text taken apart. -/
structure Splitting where
  /-- What stands before the first lexeme. -/
  lead : List Char
  /-- Everything else. -/
  pieces : List Piece

/-! ## The lexeme at a place -/

section Lexeme

variable {c : Char} {l tail rest sign digits : List Char} {k : TokenKind}

theorem Spells.ne_nil (h : Spells l rest k) : l ≠ [] := by
  cases h with
  | number _ hne _ _ _ => exact List.append_ne_nil_of_right_ne_nil _ hne
  | openParen | closeParen | quote | dot | sign | symbol => exact List.cons_ne_nil _ _

theorem lexemeTail_eq_iff_of_number (hc : c.isDigit ∨ isSign c) :
    lexemeTail c (tail ++ rest) = tail ↔
      (∀ d ∈ tail, d.isDigit) ∧ ∀ d ∈ rest.head?, d.isDigit = false := by
  rw [lexemeTail, if_pos (Bool.or_eq_true_iff.2 hc), takeWhile_append_eq_left_iff]

theorem lexemeTail_eq_iff_of_symbol (hc : isSymbolStart c) :
    lexemeTail c (tail ++ rest) = tail ↔
      (∀ d ∈ tail, isDelimiter d = false) ∧ ∀ d ∈ rest.head?, isDelimiter d := by
  rw [lexemeTail, isDigit_of_isSymbolStart hc, isSign_of_isSymbolStart hc, if_neg (by decide),
    if_pos hc, takeWhile_append_eq_left_iff]
  simp

/-- A sign, or none, and digits after it are a lexeme with a sign or a digit in
    front. -/
theorem integerOf_of_signed (hsign : sign = [] ∨ sign = ['+'] ∨ sign = ['-']) (hne : digits ≠ [])
    (hdigits : ∀ d ∈ digits, d.isDigit) (h : sign ++ digits = c :: tail) :
    (c.isDigit ∨ isSign c ∧ tail ≠ []) ∧ (∀ d ∈ tail, d.isDigit) ∧
      integerOf c tail = signed sign digits := by
  rcases hsign with rfl | rfl | rfl
  · rw [List.nil_append] at h
    subst h
    obtain ⟨hc, htail⟩ := List.forall_mem_cons.1 hdigits
    have hsign : c ≠ '+' ∧ c ≠ '-' :=
      not_or.1 (isSign_iff.not.1 fun h => Bool.false_ne_true ((isDigit_of_isSign h).symm.trans hc))
    exact ⟨.inl hc, htail, by simp [integerOf, hsign, signed]⟩
  · cases h
    exact ⟨.inr ⟨rfl, hne⟩, hdigits, rfl⟩
  · cases h
    exact ⟨.inr ⟨rfl, hne⟩, hdigits, rfl⟩

/-- The other way round. -/
theorem exists_signed (hc : c.isDigit ∨ isSign c ∧ tail ≠ []) (htail : ∀ d ∈ tail, d.isDigit) :
    ∃ sign digits, (sign = [] ∨ sign = ['+'] ∨ sign = ['-']) ∧ digits ≠ [] ∧
      (∀ d ∈ digits, d.isDigit) ∧ sign ++ digits = c :: tail ∧
        signed sign digits = integerOf c tail := by
  rcases hc with hc | ⟨hc, hne⟩
  · have hdigits : ∀ d ∈ c :: tail, d.isDigit := List.forall_mem_cons.2 ⟨hc, htail⟩
    have hsigned := integerOf_of_signed (.inl rfl) (List.cons_ne_nil c tail) hdigits rfl
    exact ⟨[], c :: tail, .inl rfl, List.cons_ne_nil c tail, hdigits, rfl, hsigned.2.2.symm⟩
  · rcases isSign_iff.1 hc with rfl | rfl
    · exact ⟨['+'], tail, .inr (.inl rfl), hne, htail, rfl, rfl⟩
    · exact ⟨['-'], tail, .inr (.inr rfl), hne, htail, rfl, rfl⟩

/-- The lexer finds a lexeme of the grammar: it starts no gap, is as long as it
    can be, and is the token that it spells. -/
theorem Spells.ofLexeme (h : Spells (c :: tail) rest k) :
    isBlank c = false ∧ c ≠ ';' ∧ lexemeTail c (tail ++ rest) = tail ∧
      TokenKind.ofLexeme c tail = .ok k := by
  generalize hl : c :: tail = l at h
  cases h with
  | openParen | closeParen | quote | dot =>
    cases hl
    exact ⟨rfl, by decide, rfl, rfl⟩
  | number hsign hne hdigits hn hend =>
    obtain ⟨hc, htail, hvalue⟩ := integerOf_of_signed hsign hne hdigits hl.symm
    obtain ⟨hblank, hcomment⟩ := plain_of_isDelimiter (isDelimiter_of_number hc)
    exact ⟨hblank, hcomment,
      (lexemeTail_eq_iff_of_number (hc.imp_right And.left)).2 ⟨htail, hend⟩,
      ofLexeme_of_digits hc (hvalue.trans hn.symm)⟩
  | sign hc hend =>
    cases hl
    have htail : lexemeTail c ([] ++ rest) = [] :=
      (lexemeTail_eq_iff_of_number (.inr (isSign_iff.2 hc))).2 ⟨List.forall_mem_nil _, hend⟩
    rcases hc with rfl | rfl
    · exact ⟨rfl, by decide, htail, rfl⟩
    · exact ⟨rfl, by decide, htail, rfl⟩
  | symbol hc htail hend =>
    cases hl
    obtain ⟨hblank, hcomment⟩ := plain_of_isDelimiter (isDelimiter_of_isSymbolStart hc)
    exact ⟨hblank, hcomment, (lexemeTail_eq_iff_of_symbol hc).2
      ⟨fun d hd => isDelimiter_of_isSymbolContinue (htail d hd), hend⟩, ofLexeme_of_symbol hc htail⟩

/-- Every lexeme that the lexer takes for a token is one of the grammar. -/
theorem spells_of_ofLexeme (hkind : TokenKind.ofLexeme c tail = .ok k)
    (htail : lexemeTail c (tail ++ rest) = tail) : Spells (c :: tail) rest k := by
  cases takenFor_of_ofLexeme hkind with
  | openParen =>
    obtain rfl : [] = tail := htail
    exact .openParen rest
  | closeParen =>
    obtain rfl : [] = tail := htail
    exact .closeParen rest
  | quote =>
    obtain rfl : [] = tail := htail
    exact .quote rest
  | dot =>
    obtain rfl : [] = tail := htail
    exact .dot rest
  | sign hc => exact .sign (isSign_iff.1 hc) ((lexemeTail_eq_iff_of_number (.inr hc)).1 htail).2
  | number hc hn =>
    obtain ⟨htail, hend⟩ := (lexemeTail_eq_iff_of_number (hc.imp_right And.left)).1 htail
    obtain ⟨sign, digits, hsign, hne, hdigits, heq, hvalue⟩ := exists_signed hc htail
    rw [← heq]
    exact .number hsign hne hdigits (hn.trans hvalue.symm) hend
  | symbol hc hcontinue =>
    exact .symbol hc hcontinue ((lexemeTail_eq_iff_of_symbol hc).1 htail).2

end Lexeme

/-! ## The lexer at a place -/

section Lexer

variable {lead rest : List Char}

/-- A comment goes up to the end of its line. -/
theorem takeWhile_comment {comment : List Char} (hcomment : ∀ c ∈ comment, endsComment c = false)
    (hend : ∀ c ∈ rest.head?, endsComment c) :
    (comment ++ rest).takeWhile (fun d => !endsComment d) = comment :=
  takeWhile_append_eq_left_iff.2
    ⟨fun d hd => by simp [hcomment d hd], fun d hd => by simp [hend d hd]⟩

/-- The lexer passes over a gap. -/
theorem Gap.lexemesFrom_append (h : Gap lead rest) (offset : Nat) :
    lexemesFrom offset (lead ++ rest) = lexemesFrom (offset + utf8Length lead) rest := by
  induction h generalizing offset with
  | nil => rfl
  | blank hc _ ih =>
    rw [List.cons_append, lexemesFrom, if_pos hc, ih, utf8Length_cons, Nat.add_assoc]
  | @comment comment g rest hcomment hend _ ih =>
    rw [List.append_assoc, List.cons_append, lexemesFrom, if_neg (by decide), if_pos (by decide)]
    simp only [takeWhile_comment hcomment hend, List.drop_left, ih]
    simp [Nat.add_assoc]

/-- It takes the next lexeme. -/
theorem Spells.lexemesFrom_append {l : List Char} {k : TokenKind} (h : Spells l rest k)
    (offset : Nat) : lexemesFrom offset (l ++ rest) =
      .token ⟨k, offset, offset + utf8Length l⟩ :: lexemesFrom (offset + utf8Length l) rest := by
  obtain ⟨c, tail, rfl⟩ := List.exists_cons_of_ne_nil h.ne_nil
  obtain ⟨hblank, hcomment, htail, hkind⟩ := h.ofLexeme
  rw [List.cons_append, lexemesFrom, if_neg (by simp [hblank]), if_neg (by simpa using hcomment)]
  simp only [htail, List.drop_left, Lexeme.ofChars, hkind]

end Lexer

end SmallScheme
