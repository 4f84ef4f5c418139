import SmallScheme.Proofs.Reader.Lexing

/-!
# Text put together from tokens

Tokens written one after another are found again one after another (`Scans`),
provided that none of them runs on into the next one. Brackets and dots never
do; an integer or a symbol ends where the characters after it are `Closed`: where
the text ends, or with a delimiter.
-/

namespace SmallScheme

open Text

/-- The characters `cs` begin with the tokens `ks`, and go on with `rest`. -/
def Scans (cs : List Char) (ks : List TokenKind) (rest : List Char) : Prop :=
  ∀ offset, ∃ (ts : List Token) (offset' : Nat), ts.map Token.kind = ks ∧
    lexemesFrom offset cs = ts.map .token ++ lexemesFrom offset' rest

/-- No integer or symbol can go on here. -/
def Closed (rest : List Char) : Prop := ∀ c ∈ rest.head?, isDelimiter c

theorem closed_nil : Closed [] := fun _ h => by cases h

theorem closed_cons {c : Char} (h : isDelimiter c) (rest : List Char) : Closed (c :: rest) := by
  intro _ hd
  cases hd
  exact h

/-! ## Characters -/

section Characters

variable {c : Char}

theorem eq_of_isDelimiter (h : isDelimiter c) :
    c = ' ' ∨ c = '\t' ∨ c = '\n' ∨ c = '\r' ∨ c = '(' ∨ c = ')' ∨ c = '\x27' ∨ c = ';' := by
  simpa [isDelimiter, isBlank, or_assoc] using h

/-- A set of characters without the delimiters. -/
theorem isDelimiter_eq_false {p : Char → Bool}
    (hp : [' ', '\t', '\n', '\r', '(', ')', '\x27', ';'].any p = false) (h : p c) :
    isDelimiter c = false := by
  by_contra hd
  rw [Bool.not_eq_false] at hd
  exact List.any_eq_false.1 hp c (by simpa using eq_of_isDelimiter hd) h

theorem isDelimiter_of_isDigit (h : c.isDigit) : isDelimiter c = false :=
  isDelimiter_eq_false rfl h

theorem isDelimiter_of_isSign (h : isSign c) : isDelimiter c = false :=
  isDelimiter_eq_false rfl h

theorem isDelimiter_of_isSymbolStart (h : isSymbolStart c) : isDelimiter c = false :=
  isDelimiter_eq_false rfl h

theorem isDelimiter_of_isSymbolContinue (h : isSymbolContinue c) : isDelimiter c = false :=
  isDelimiter_eq_false rfl h

theorem isDelimiter_of_number {tail : List Char} (h : c.isDigit ∨ isSign c ∧ tail ≠ []) :
    isDelimiter c = false :=
  h.elim isDelimiter_of_isDigit fun h => isDelimiter_of_isSign h.1

/-- No gap begins with a character that is no delimiter. -/
theorem plain_of_isDelimiter (h : isDelimiter c = false) : isBlank c = false ∧ c ≠ ';' := by
  refine ⟨?_, ?_⟩
  · by_contra hblank
    rw [isDelimiter, eq_true_of_ne_false hblank] at h
    cases h
  · rintro rfl
    cases h

theorem isSign_iff : isSign c ↔ c = '+' ∨ c = '-' := by simp [isSign]

theorem isDigit_of_isSign (h : isSign c) : c.isDigit = false := by
  rcases isSign_iff.1 h with rfl | rfl <;> decide

theorem isSign_of_isSymbolStart (h : isSymbolStart c) : isSign c = false := by
  by_contra hs
  rcases isSign_iff.1 (eq_true_of_ne_false hs) with rfl | rfl <;> exact absurd h (by decide)

theorem isDigit_of_isSymbolStart (h : isSymbolStart c) : c.isDigit = false := by
  by_contra hd
  rw [Bool.not_eq_false] at hd
  rcases Bool.or_eq_true_iff.1 h with halpha | hother
  · -- The letters and the digits are apart in the order of characters.
    simp [Char.isAlpha, Char.isUpper, Char.isLower, Char.isDigit, UInt32.le_iff_toNat_le]
      at halpha hd
    omega
  · have : c = '<' ∨ c = '=' ∨ c = '>' ∨ c = '*' ∨ c = '/' ∨ c = '#' := by simpa using hother
    rcases this with rfl | rfl | rfl | rfl | rfl | rfl <;> exact absurd hd (by decide)

end Characters

/-! ## Single lexemes -/

section Lexeme

variable {c : Char} {tail rest : List Char}

/-- Characters that stop exactly where a property does. -/
theorem takeWhile_append_eq_left_iff {p : Char → Bool} :
    (tail ++ rest).takeWhile p = tail ↔
      (∀ d ∈ tail, p d) ∧ ∀ d ∈ rest.head?, p d = false := by
  constructor
  · intro h
    have htail : ∀ d ∈ tail, p d := fun d hd => List.mem_takeWhile_imp (h.symm ▸ hd)
    refine ⟨htail, fun d hd => ?_⟩
    rw [List.takeWhile_append_of_pos htail, List.append_right_eq_self] at h
    cases rest with
    | nil => cases hd
    | cons d' rest =>
      cases hd
      by_contra hp
      rw [List.takeWhile_cons_of_pos (eq_true_of_ne_false hp)] at h
      cases h
  · rintro ⟨htail, hrest⟩
    rw [List.takeWhile_append_of_pos htail, List.append_right_eq_self]
    cases rest with
    | nil => rfl
    | cons d rest => exact List.takeWhile_cons_of_neg (by simp [hrest d rfl])

/-- Characters that go on with others, none of them a delimiter, up to where no
    lexeme can go on. -/
theorem takeWhile_append_of_closed {p : Char → Bool} (hp : ∀ c, p c → isDelimiter c = false)
    (htail : ∀ d ∈ tail, p d) (hrest : Closed rest) : (tail ++ rest).takeWhile p = tail := by
  refine takeWhile_append_eq_left_iff.2 ⟨htail, fun c hc => ?_⟩
  by_contra h
  have hdelimiter : isDelimiter c = false := hp c (eq_true_of_ne_false h)
  exact Bool.false_ne_true (hdelimiter.symm.trans (hrest c hc))

theorem lexemeTail_of_digits (hc : c.isDigit ∨ isSign c) (htail : ∀ d ∈ tail, d.isDigit)
    (hrest : Closed rest) : lexemeTail c (tail ++ rest) = tail := by
  rw [lexemeTail, if_pos (Bool.or_eq_true_iff.2 hc)]
  exact takeWhile_append_of_closed (fun _ => isDelimiter_of_isDigit) htail hrest

theorem lexemeTail_of_symbol (hc : isSymbolStart c) (htail : ∀ d ∈ tail, isSymbolContinue d)
    (hrest : Closed rest) : lexemeTail c (tail ++ rest) = tail := by
  rw [lexemeTail, isDigit_of_isSymbolStart hc, isSign_of_isSymbolStart hc, if_neg (by decide),
    if_pos hc]
  refine takeWhile_append_of_closed (fun d hd => by simpa using hd) (fun d hd => ?_) hrest
  rw [isDelimiter_of_isSymbolContinue (htail d hd), Bool.not_false]

/-- A lexeme goes on up to a delimiter at most. -/
theorem isDelimiter_of_mem_lexemeTail {d : Char} (h : d ∈ lexemeTail c rest) :
    isDelimiter d = false := by
  rw [lexemeTail] at h
  split at h
  · exact isDelimiter_of_isDigit (List.mem_takeWhile_imp h)
  split at h
  · simpa using List.mem_takeWhile_imp h
  · cases h

/-- What comes after a lexeme. -/
theorem lexemeTail_append_drop (c : Char) (rest : List Char) :
    lexemeTail c rest ++ rest.drop (lexemeTail c rest).length = rest := by
  have hprefix : lexemeTail c rest <+: rest := by
    rw [lexemeTail]
    split
    · exact List.takeWhile_prefix _
    split
    · exact List.takeWhile_prefix _
    · exact List.nil_prefix
  exact List.prefix_iff_eq_append.1 hprefix

/-- What starts like a symbol is one, unless a character in it is not allowed. -/
theorem ofLexeme_of_isSymbolStart (hc : isSymbolStart c) :
    TokenKind.ofLexeme c tail =
      match tail.find? fun d => !isSymbolContinue d with
      | some bad => .error (.strayCharacter bad)
      | none => .ok (.symbol (String.ofList (c :: tail))) := by
  have hne : c ≠ '(' ∧ c ≠ ')' ∧ c ≠ '\x27' ∧ c ≠ '.' := by
    refine ⟨?_, ?_, ?_, ?_⟩ <;>
    · rintro rfl
      exact absurd hc (by decide)
  cases hfind : tail.find? fun d => !isSymbolContinue d <;>
    simp [TokenKind.ofLexeme, hne, isDigit_of_isSymbolStart hc, isSign_of_isSymbolStart hc, hc,
      hfind]

theorem ofLexeme_of_symbol (hc : isSymbolStart c) (htail : ∀ d ∈ tail, isSymbolContinue d) :
    TokenKind.ofLexeme c tail = .ok (.symbol (String.ofList (c :: tail))) := by
  have hfind : tail.find? (fun d => !isSymbolContinue d) = none :=
    List.find?_eq_none.2 (by simpa using htail)
  rw [ofLexeme_of_isSymbolStart hc, hfind]

/-- What starts like a number is one, unless it is too large. -/
theorem ofLexeme_of_number (hc : c.isDigit ∨ isSign c ∧ tail ≠ []) :
    TokenKind.ofLexeme c tail =
      match Fixnum.ofInt? (integerOf c tail) with
      | some n => .ok (.integer n)
      | none => .error (.integerTooLarge (String.ofList (c :: tail))) := by
  have hne : c ≠ '(' ∧ c ≠ ')' ∧ c ≠ '\x27' ∧ c ≠ '.' := by
    refine ⟨?_, ?_, ?_, ?_⟩ <;>
    · rintro rfl
      exact absurd hc (by simp [isSign])
  have hnumber : c.isDigit ∨ isSign c := hc.imp_right And.left
  have hlone : ¬(isSign c ∧ tail = []) := by
    intro h
    obtain ⟨hsign, htail⟩ := h
    rcases hc with hdigit | ⟨_, hne⟩
    · exact Bool.false_ne_true ((isDigit_of_isSign hsign).symm.trans hdigit)
    · exact hne htail
  cases hvalue : Fixnum.ofInt? (integerOf c tail) <;>
    simp [TokenKind.ofLexeme, hne, hlone, hnumber, hvalue]

theorem ofLexeme_of_digits {n : Fixnum} (hc : c.isDigit ∨ isSign c ∧ tail ≠ [])
    (hn : integerOf c tail = n.toInt) : TokenKind.ofLexeme c tail = .ok (.integer n) := by
  rw [ofLexeme_of_number hc, hn, Fixnum.ofInt?_toInt]

end Lexeme

namespace Scans

variable {cs mid rest : List Char} {ks ks' : List TokenKind} {c : Char}

theorem trans (h : Scans cs ks mid) (h' : Scans mid ks' rest) : Scans cs (ks ++ ks') rest := by
  intro offset
  obtain ⟨ts, offset₁, rfl, hts⟩ := h offset
  obtain ⟨ts', offset₂, rfl, hts'⟩ := h' offset₁
  exact ⟨ts ++ ts', offset₂, List.map_append, by rw [hts, hts', List.map_append, List.append_assoc]⟩

/-- A text made of tokens has these tokens. -/
theorem tokenize {text : String} (h : Scans text.toList ks []) :
    ∃ ts, SmallScheme.tokenize text = .ok ts ∧ ts.map Token.kind = ks := by
  obtain ⟨ts, offset, hks, hts⟩ := h 0
  rw [lexemesFrom, List.append_nil] at hts
  exact ⟨ts, tokenize_eq_ok_iff.2 hts, hks⟩

theorem blank (h : isBlank c) (rest : List Char) : Scans (c :: rest) [] rest := fun offset =>
  ⟨[], offset + c.utf8Size, rfl, by rw [lexemesFrom, if_pos h]; rfl⟩

/-- A lexeme that is a token is found if it goes on up to where it ends. -/
theorem lexeme (c : Char) (tail : List Char) {k : TokenKind} (hblank : isBlank c = false)
    (hcomment : c ≠ ';') (hkind : TokenKind.ofLexeme c tail = .ok k)
    (htail : lexemeTail c (tail ++ rest) = tail) : Scans (c :: tail ++ rest) [k] rest := by
  intro offset
  refine ⟨[⟨k, offset, offset + utf8Length (c :: tail)⟩], offset + utf8Length (c :: tail), rfl, ?_⟩
  rw [List.cons_append, lexemesFrom, if_neg (by simp [hblank]), if_neg (by simp [hcomment])]
  simp [htail, Lexeme.ofChars, hkind]

theorem openParen (rest : List Char) : Scans ('(' :: rest) [.openParen] rest :=
  lexeme '(' [] rfl (by decide) rfl rfl

theorem closeParen (rest : List Char) : Scans (')' :: rest) [.closeParen] rest :=
  lexeme ')' [] rfl (by decide) rfl rfl

theorem dot (rest : List Char) : Scans ('.' :: rest) [.dot] rest :=
  lexeme '.' [] rfl (by decide) rfl rfl

/-- The same for a lexeme that does not start with a delimiter. -/
theorem lexeme_of_isDelimiter (c : Char) (tail : List Char) {k : TokenKind}
    (hc : isDelimiter c = false) (hkind : TokenKind.ofLexeme c tail = .ok k)
    (htail : lexemeTail c (tail ++ rest) = tail) : Scans (c :: tail ++ rest) [k] rest :=
  have ⟨hblank, hcomment⟩ := plain_of_isDelimiter hc
  lexeme c tail hblank hcomment hkind htail

/-- A symbol is found if what comes next does not make it longer. -/
theorem symbol {name : String} (h : IsSymbol name.toList) (hrest : Closed rest) :
    Scans (name.toList ++ rest) [.symbol name] rest := by
  rcases hchars : name.toList with _ | ⟨c, tail⟩
  · rw [hchars] at h
    exact h.elim
  · rw [hchars] at h
    obtain rfl : name = String.ofList (c :: tail) := by rw [← hchars, String.ofList_toList]
    obtain ⟨hsign, rfl⟩ | ⟨hstart, htail⟩ := h
    · -- No digits follow a sign that is a symbol.
      have hnone : lexemeTail c rest = [] :=
        lexemeTail_of_digits (.inr hsign) (List.forall_mem_nil _) hrest
      rcases isSign_iff.1 hsign with rfl | rfl
      · exact lexeme_of_isDelimiter '+' [] rfl rfl hnone
      · exact lexeme_of_isDelimiter '-' [] rfl rfl hnone
    · exact lexeme_of_isDelimiter c tail (isDelimiter_of_isSymbolStart hstart)
        (ofLexeme_of_symbol hstart htail) (lexemeTail_of_symbol hstart htail hrest)

/-- So is an integer. -/
theorem digits {tail : List Char} {n : Fixnum} (hc : c.isDigit ∨ isSign c ∧ tail ≠ [])
    (htail : ∀ d ∈ tail, d.isDigit) (hn : integerOf c tail = n.toInt) (hrest : Closed rest) :
    Scans (c :: tail ++ rest) [.integer n] rest :=
  lexeme_of_isDelimiter c tail (isDelimiter_of_number hc) (ofLexeme_of_digits hc hn)
    (lexemeTail_of_digits (hc.imp_right And.left) htail hrest)

/-- The decimal form of an integer is read as this integer. -/
theorem integer (n : Fixnum) (hrest : Closed rest) :
    Scans (n.text.toList ++ rest) [.integer n] rest := by
  have hdigits : ∀ d ∈ Nat.toDigits 10 n.toInt.natAbs, d.isDigit := fun d hd =>
    Nat.isDigit_of_mem_toDigits (by decide) (by decide) hd
  have hvalue := Nat.ofDigitChars_ten_toDigits (n := n.toInt.natAbs)
  rw [Fixnum.toList_text]
  by_cases hneg : n.toInt < 0
  · rw [if_pos hneg, List.singleton_append]
    refine digits (.inr ⟨rfl, Nat.toDigits_ne_nil⟩) hdigits ?_ hrest
    rw [integerOf, if_pos (by decide), hvalue]
    omega
  · rw [if_neg hneg, List.nil_append]
    -- The first digit stands in the place of the sign.
    rcases htext : Nat.toDigits 10 n.toInt.natAbs with _ | ⟨c, tail⟩
    · exact absurd htext Nat.toDigits_ne_nil
    · rw [htext] at hdigits hvalue
      obtain ⟨hc, htail⟩ := List.forall_mem_cons.1 hdigits
      have hsign : ¬isSign c := fun h =>
        Bool.false_ne_true ((isDigit_of_isSign h).symm.trans hc)
      have hne : c ≠ '+' ∧ c ≠ '-' := not_or.1 (isSign_iff.not.1 hsign)
      refine digits (.inl hc) htail ?_ hrest
      simp only [integerOf, beq_iff_eq, hne, if_false, hvalue]
      omega

end Scans

end SmallScheme
