import Mathlib
import SmallScheme.Token.Lexer

/-!
# Lexemes and the characters that they are made of

A text has tokens if none of its lexemes is faulty (`tokenize_eq_ok_iff`). What a lexeme is
taken for is a matter of its first character, and of the others where it starts a number or
a symbol (`TakenFor`).

A symbol is a sign that stands alone, or a character that may start a symbol and
others that may continue it (`IsSymbol`). No symbol of a text is written in any
other way (`isSymbol_of_tokenize`); in particular none is written like a
dot.
-/

namespace SmallScheme

open Text

/-- There are tokens for a list of lexemes only where none is faulty. -/
theorem mapM_result_eq_ok_iff {ls : List Lexeme} {ts : List Token} :
    ls.mapM Lexeme.result = .ok ts ↔ ls = ts.map .token := by
  induction ls generalizing ts with
  | nil => cases ts <;> simp [pure, Except.pure]
  | cons l ls ih =>
    rw [List.mapM_cons]
    cases l with
    | fault e => cases ts <;> simp [Lexeme.result, bind, Except.bind]
    | token t =>
      rcases hls : ls.mapM Lexeme.result with e | ts'
      · have hne : ∀ ts : List Token, ls ≠ ts.map .token := fun ts h => by simp [ih.2 h] at hls
        cases ts <;> simp [Lexeme.result, bind, Except.bind, hne]
      · obtain rfl := ih.1 hls
        cases ts <;> simp [Lexeme.result, bind, Except.bind, pure, Except.pure, ← ih, hls]

theorem tokenize_eq_ok_iff {text : String} {ts : List Token} :
    tokenize text = .ok ts ↔ lexemes text = ts.map .token :=
  mapM_result_eq_ok_iff

/-! ## What a lexeme is taken for -/

/-- The lexer takes the lexeme that starts with `c` and goes on with `tail` for this token,
    or this fault: one case for each kind of lexeme. -/
inductive TakenFor : Char → List Char → Except LexicalFault TokenKind → Prop
  | openParen (tail : List Char) : TakenFor '(' tail (.ok .openParen)
  | closeParen (tail : List Char) : TakenFor ')' tail (.ok .closeParen)
  | quote (tail : List Char) : TakenFor '\x27' tail (.ok .quote)
  | dot (tail : List Char) : TakenFor '.' tail (.ok .dot)
  | sign {c : Char} (hc : isSign c) : TakenFor c [] (.ok (.symbol (String.ofList [c])))
  | number {c : Char} {tail : List Char} {n : Fixnum} (hc : c.isDigit ∨ isSign c ∧ tail ≠ [])
      (hn : n.toInt = integerOf c tail) : TakenFor c tail (.ok (.integer n))
  | tooLarge {c : Char} {tail : List Char} (hc : c.isDigit ∨ isSign c ∧ tail ≠ [])
      (hn : ∀ n : Fixnum, n.toInt ≠ integerOf c tail) :
      TakenFor c tail (.error (.integerTooLarge (String.ofList (c :: tail))))
  | symbol {c : Char} {tail : List Char} (hc : isSymbolStart c)
      (htail : ∀ d ∈ tail, isSymbolContinue d) :
      TakenFor c tail (.ok (.symbol (String.ofList (c :: tail))))
  /-- The first character that may not continue a symbol is the one to blame. -/
  | stray {c bad : Char} {front back : List Char} (hc : isSymbolStart c)
      (hfront : ∀ d ∈ front, isSymbolContinue d) (hbad : isSymbolContinue bad = false) :
      TakenFor c (front ++ bad :: back) (.error (.strayCharacter bad))
  | nothing {c : Char} (tail : List Char) (hmark : c ≠ '(' ∧ c ≠ ')' ∧ c ≠ '\x27' ∧ c ≠ '.')
      (hdigit : c.isDigit = false) (hsign : isSign c = false) (hstart : isSymbolStart c = false) :
      TakenFor c tail (.error (.strayCharacter c))

theorem takenFor_ofLexeme (c : Char) (tail : List Char) :
    TakenFor c tail (TokenKind.ofLexeme c tail) := by
  -- What starts like a number is one, unless it is a sign that stands alone.
  have hnumber (hlone : ¬(isSign c && tail.isEmpty)) (hc : c.isDigit || isSign c) :
      c.isDigit ∨ isSign c ∧ tail ≠ [] :=
    (Bool.or_eq_true_iff.1 hc).imp_right fun hsign => ⟨hsign, by simpa [hsign] using hlone⟩
  fun_cases TokenKind.ofLexeme c tail with
  | case1 hc =>
    obtain rfl := beq_iff_eq.1 hc
    exact .openParen tail
  | case2 _ hc =>
    obtain rfl := beq_iff_eq.1 hc
    exact .closeParen tail
  | case3 _ _ hc =>
    obtain rfl := beq_iff_eq.1 hc
    exact .quote tail
  | case4 _ _ _ hc =>
    obtain rfl := beq_iff_eq.1 hc
    exact .dot tail
  | case5 _ _ _ _ hone =>
    obtain ⟨hsign, hnil⟩ := Bool.and_eq_true_iff.1 hone
    obtain rfl := List.isEmpty_iff.1 hnil
    exact .sign hsign
  | case6 _ _ _ _ hlone hc n hn =>
    exact .number (hnumber hlone hc) (Fixnum.toInt_of_ofInt? hn)
  | case7 _ _ _ _ hlone hc hnone =>
    exact .tooLarge (hnumber hlone hc) (Fixnum.toInt_ne_of_ofInt? hnone)
  | case8 _ _ _ _ _ _ hc bad hbad =>
    obtain ⟨hstray, front, back, rfl, hfront⟩ := List.find?_eq_some_iff_append.1 hbad
    exact .stray hc (by simpa using hfront) (by simpa using hstray)
  | case9 _ _ _ _ _ _ hc hnone =>
    exact .symbol hc (by simpa using hnone)
  | case10 hopen hclose hquote hdot _ hnumberless hstart =>
    simp only [beq_iff_eq] at hopen hclose hquote hdot
    obtain ⟨hdigit, hsign⟩ := not_or.1 (Bool.or_eq_true_iff.not.1 hnumberless)
    exact .nothing tail ⟨hopen, hclose, hquote, hdot⟩ (by simpa using hdigit)
      (by simpa using hsign) (by simpa using hstart)

theorem takenFor_of_ofLexeme {c : Char} {tail : List Char}
    {outcome : Except LexicalFault TokenKind} (h : TokenKind.ofLexeme c tail = outcome) :
    TakenFor c tail outcome :=
  h ▸ takenFor_ofLexeme c tail

/-! ## Symbols -/

/-- The characters of a symbol. -/
def IsSymbol : List Char → Prop
  | [] => False
  | c :: tail => isSign c ∧ tail = [] ∨ isSymbolStart c ∧ ∀ d ∈ tail, isSymbolContinue d

theorem isSymbol_of_ofLexeme {c : Char} {tail : List Char} {name : String}
    (h : TokenKind.ofLexeme c tail = .ok (.symbol name)) : name.toList = c :: tail ∧
      IsSymbol (c :: tail) := by
  -- Of all the lexemes that are tokens, two are symbols: a sign on its own, and
  -- what starts like one.
  cases takenFor_of_ofLexeme h with
  | sign hc => exact ⟨String.toList_ofList, .inl ⟨hc, rfl⟩⟩
  | symbol hc htail => exact ⟨String.toList_ofList, .inr ⟨hc, htail⟩⟩

/-- Every token of a text is written by some of its characters. -/
theorem exists_ofLexeme_of_mem {offset : Nat} {cs : List Char} {t : Token}
    (h : .token t ∈ lexemesFrom offset cs) : ∃ c tail, TokenKind.ofLexeme c tail = .ok t.kind := by
  fun_induction lexemesFrom offset cs with
  | case1 => cases h
  | case2 offset c rest _ ih => exact ih h
  | case3 offset c rest _ _ comment ih => exact ih h
  | case4 offset c rest _ _ tail ih =>
    rcases List.mem_cons.1 h with heq | h
    · refine ⟨c, tail, ?_⟩
      rw [Lexeme.ofChars] at heq
      rcases hkind : TokenKind.ofLexeme c tail with e | kind
      · rw [hkind] at heq
        cases heq
      · rw [hkind] at heq
        cases heq
        rfl
    · exact ih h

/-- A symbol of a text has the characters of a symbol, also where other lexemes are
    faulty. -/
theorem isSymbol_of_mem_lexemes {text : String} {t : Token} {name : String}
    (h : .token t ∈ lexemes text) (hname : t.kind = .symbol name) : IsSymbol name.toList := by
  obtain ⟨c, tail, hof⟩ := exists_ofLexeme_of_mem h
  rw [hname] at hof
  obtain ⟨hchars, hsymbol⟩ := isSymbol_of_ofLexeme hof
  rwa [hchars]

/-- No symbol is written like a dot. -/
theorem dot_not_mem_of_lexemes {text : String} {ts : List Token}
    (h : ∀ t ∈ ts, .token t ∈ lexemes text) : .symbol "." ∉ ts.map Token.kind := by
  intro hmem
  obtain ⟨t, ht, hkind⟩ := List.mem_map.1 hmem
  exact absurd (isSymbol_of_mem_lexemes (h t ht) hkind) (by simp [IsSymbol, isSign, isSymbolStart])

theorem mem_lexemes_of_tokenize {text : String} {ts : List Token} (h : tokenize text = .ok ts) :
    ∀ t ∈ ts, .token t ∈ lexemes text := by
  rw [tokenize_eq_ok_iff.1 h]
  exact fun t ht => List.mem_map_of_mem ht

theorem isSymbol_of_tokenize {text : String} {ts : List Token} {name : String}
    (h : tokenize text = .ok ts) (hname : .symbol name ∈ ts.map Token.kind) :
    IsSymbol name.toList := by
  obtain ⟨t, ht, hkind⟩ := List.mem_map.1 hname
  exact isSymbol_of_mem_lexemes (mem_lexemes_of_tokenize h t ht) hkind

theorem dot_not_mem_of_tokenize {text : String} {ts : List Token} (h : tokenize text = .ok ts) :
    .symbol "." ∉ ts.map Token.kind :=
  dot_not_mem_of_lexemes (mem_lexemes_of_tokenize h)

end SmallScheme
