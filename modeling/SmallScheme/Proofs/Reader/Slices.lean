import SmallScheme.Proofs.Reader.Prefix

/-!
# What stands at an error

The span of a lexeme covers whole characters of the text (`Span.Covers`), and these
say what the lexeme is (`Lexeme.WrittenAs`): those of a token are this token when
nothing else is there, and those of a fault hold the character that is reported, or
are the digits that are.

A reading error is placed at a lexeme, if anywhere: it is the first fault, or it is
said of a token, which is the one out of place or the dot in a list that is
(`exists_lexeme_of_parse`). So the characters at an error are what it names
(`slice_of_parse_error`).
-/

namespace SmallScheme

open Text

/-! ## Slices -/

/-- The span covers the characters `slice` of the text `cs`, and no part of any
    other. -/
def Span.Covers (s : Span) (cs slice : List Char) : Prop :=
  ∃ before after, cs = before ++ slice ++ after ∧
    s = ⟨utf8Length before, utf8Length (before ++ slice)⟩

/-- What a fault says is said of the characters `slice`. -/
def LexicalFault.Names : LexicalFault → List Char → Prop
  | integerTooLarge digits, slice => slice = digits.toList
  | strayCharacter c, slice => c ∈ slice

/-- What an error says is said of the characters `slice`. That the text ends too
    early is said of none. -/
def ReadError.Names : ReadError → List Char → Prop
  | lexical e, slice => e.fault.Names slice
  | unexpectedToken found _, slice =>
    tokenize (String.ofList slice) = .ok [⟨found.kind, 0, utf8Length slice⟩]
  | unexpectedEnd _, _ => False
  | misplacedDot _, slice => slice = ['.']
  | quoteMark _, slice => slice = ['\x27']

/-- The lexeme is made of the characters `slice`. -/
def Lexeme.WrittenAs : Lexeme → List Char → Prop
  | token t, slice => Spells slice [] t.kind
  | fault e, slice => e.fault.Names slice

theorem Span.Covers.bounds {s : Span} {cs slice : List Char} (h : s.Covers cs slice)
    (hne : slice ≠ []) : s.start < s.stop ∧ s.stop ≤ utf8Length cs := by
  obtain ⟨before, after, rfl, rfl⟩ := h
  have := utf8Length_pos hne
  simp only [utf8Length_append]
  omega

/-! ## Lexemes -/

section Lexeme

variable {c : Char} {l tail rest : List Char} {k : TokenKind}

/-- A token that stands alone is the only one. -/
theorem Spells.tokenize_eq (h : Spells l rest k) :
    tokenize (String.ofList l) = .ok [⟨k, 0, utf8Length l⟩] :=
  (Makes.token (h.of_isPrefix List.nil_prefix) : Makes [] l [] _).tokenize_eq

/-- The dot and the quote mark are written in one way only. -/
theorem Spells.eq_singleton_of_dot (h : Spells l rest .dot) : l = ['.'] := by
  cases h
  rfl

theorem Spells.eq_singleton_of_quote (h : Spells l rest .quote) : l = ['\x27'] := by
  cases h
  rfl

/-- What is wrong with a lexeme is found among its characters. -/
theorem names_of_ofLexeme {f : LexicalFault} (h : TokenKind.ofLexeme c tail = .error f) :
    f.Names (c :: tail) := by
  cases takenFor_of_ofLexeme h with
  | tooLarge => exact String.toList_ofList.symm
  | stray => exact List.mem_cons_of_mem c (List.mem_append_right _ List.mem_cons_self)
  | nothing => exact List.mem_cons_self

theorem Lexeme.writtenAs_ofChars {offset : Nat} (htail : lexemeTail c (tail ++ rest) = tail) :
    (ofChars offset c tail).WrittenAs (c :: tail) := by
  rw [ofChars]
  cases hkind : TokenKind.ofLexeme c tail with
  | ok k => exact (spells_of_ofLexeme hkind htail).of_isPrefix List.nil_prefix
  | error f => exact names_of_ofLexeme hkind

end Lexeme

/-- Every lexeme covers the characters that it is made of. -/
theorem Cut.exists_slice {pre cs : List Char} {ls : List Lexeme} (h : Cut pre cs ls) {l : Lexeme}
    (hl : l ∈ ls) :
    ∃ slice, slice ≠ [] ∧ l.span.Covers (pre ++ cs) slice ∧ l.WrittenAs slice := by
  induction h with
  | nil => cases hl
  | blank _ _ ih =>
    rw [List.append_cons]
    exact ih hl
  | comment _ _ _ ih =>
    rw [← List.append_assoc]
    exact ih hl
  | @lexeme pre rest tail c ls _ _ htail _ ih =>
    rcases List.mem_cons.1 hl with rfl | hl
    · refine ⟨c :: tail, List.cons_ne_nil c tail, ⟨pre, rest, (List.append_assoc ..).symm, ?_⟩,
        Lexeme.writtenAs_ofChars htail⟩
      rw [Lexeme.span_ofChars, utf8Length_append]
    · rw [← List.append_assoc]
      exact ih hl

/-! ## Errors -/

section Errors

variable {text : String} {e : ReadError}

/-- The error is said of the token `t`. -/
inductive ReadError.SaidOf : ReadError → Token → Prop
  | unexpectedToken (t : Token) (expected : Expectation) : SaidOf (.unexpectedToken t expected) t
  | misplacedDot {t : Token} (ht : t.kind = .dot) : SaidOf (.misplacedDot t.span) t
  | quoteMark {t : Token} (ht : t.kind = .quote) : SaidOf (.quoteMark t.span) t

theorem ReadError.SaidOf.span?_eq {t : Token} (h : e.SaidOf t) : e.span? = some t.span := by
  cases h <;> rfl

/-- The error of a token out of place is said of this token or of one before it. -/
theorem OutOfPlace.exists_saidOf {before : List Token} {t : Token} (h : OutOfPlace before t e) :
    ∃ u ∈ before ++ [t], e.SaidOf u := by
  cases h with
  | quoteMark _ ht => exact ⟨t, by simp, .quoteMark ht⟩
  | unopened => exact ⟨t, by simp, .unexpectedToken t _⟩
  | surplus => exact ⟨t, by simp, .unexpectedToken t _⟩
  | @misplacedDot outer bracket dot _ front back _ _ _ _ hdot =>
    exact ⟨dot, by simp, .misplacedDot hdot⟩

/-- Reading fails at the first fault, at the first token out of place, or because
    the text ends too early. -/
theorem Datum.parse_eq_error_cases (h : parse text = .error e) :
    (∃ k f, FirstFault (lexemes text) k f ∧ e = .lexical f) ∨
      (∃ j, FirstOutOfPlace (lexemes text) j e) ∨ ∃ expected, e = .unexpectedEnd expected := by
  by_cases hout : ∃ j e', FirstOutOfPlace (lexemes text) j e'
  · obtain ⟨j, e', hout⟩ := hout
    by_cases hfault : ∃ k f, FirstFault (lexemes text) k f ∧ k ≤ j + 1
    · obtain ⟨k, f, hfault, hle⟩ := hfault
      have hparse := hfault.parse fun j' e'' hout' => (hout.unique hout').1 ▸ hle
      exact .inl ⟨k, f, hfault, Except.error.inj (h.symm.trans hparse)⟩
    · have hparse := hout.parse fun k f hf => Nat.lt_of_not_le fun hle => hfault ⟨k, f, hf, hle⟩
      obtain rfl := Except.error.inj (h.symm.trans hparse)
      exact .inr (.inl ⟨j, hout⟩)
  · by_cases hfault : ∃ k f, FirstFault (lexemes text) k f
    · obtain ⟨k, f, hfault⟩ := hfault
      have hparse := hfault.parse fun j e' hj => absurd ⟨j, e', hj⟩ hout
      exact .inl ⟨k, f, hfault, Except.error.inj (h.symm.trans hparse)⟩
    · obtain ⟨_, _, ⟨d, _, hparse⟩ | ⟨_, hparse⟩⟩ := parse_of_all_in_place
        (fun k f hf => hfault ⟨k, f, hf⟩) fun j e' hj => hout ⟨j, e', hj⟩
      · cases h.symm.trans hparse
      · exact .inr (.inr ⟨_, Except.error.inj (h.symm.trans hparse)⟩)

/-- An error that is placed somewhere is a fault of the text, or said of one of its
    tokens. -/
theorem exists_lexeme_of_parse {span : Span} (h : Datum.parse text = .error e)
    (hspan : e.span? = some span) :
    (∃ f, .fault f ∈ lexemes text ∧ e = .lexical f) ∨ ∃ t, .token t ∈ lexemes text ∧ e.SaidOf t := by
  obtain ⟨_, f, ⟨ts, rest, hls, -⟩, rfl⟩ | ⟨_, ts, t, rest, hls, -, hout⟩ | ⟨_, rfl⟩ :=
    Datum.parse_eq_error_cases h
  · exact .inl ⟨f, by simp [hls], rfl⟩
  · obtain ⟨u, hu, hsaid⟩ := hout.exists_saidOf
    refine .inr ⟨u, ?_, hsaid⟩
    rw [hls, List.append_cons, ← List.map_singleton, ← List.map_append]
    exact List.mem_append_left _ (List.mem_map_of_mem hu)
  · cases hspan

/-- The characters of a token are what is said of it. -/
theorem ReadError.SaidOf.names {t : Token} {slice : List Char} (h : e.SaidOf t)
    (hslice : Spells slice [] t.kind) : e.Names slice := by
  cases h with
  | unexpectedToken => exact hslice.tokenize_eq
  | misplacedDot ht => exact Spells.eq_singleton_of_dot (ht ▸ hslice)
  | quoteMark ht => exact Spells.eq_singleton_of_quote (ht ▸ hslice)

/-- The span of an error is not empty, lies in the text, and begins and ends between
    characters. Those within it are what the error names: they are the token that was
    found and no other one, the dot, the quote mark or the digits reported, or the
    character reported is among them. -/
theorem slice_of_parse_error {span : Span} (h : Datum.parse text = .error e)
    (hspan : e.span? = some span) :
    span.start < span.stop ∧ span.stop ≤ utf8Length text.toList ∧
      ∃ slice, span.Covers text.toList slice ∧ e.Names slice := by
  obtain ⟨l, hl, hlspan, hnames⟩ : ∃ l ∈ lexemes text, l.span = span ∧
      ∀ slice, l.WrittenAs slice → e.Names slice := by
    obtain ⟨f, hf, rfl⟩ | ⟨t, ht, hsaid⟩ := exists_lexeme_of_parse h hspan
    · exact ⟨_, hf, Option.some.inj hspan, fun _ hslice => hslice⟩
    · exact ⟨_, ht, Option.some.inj (hsaid.span?_eq.symm.trans hspan), fun _ => hsaid.names⟩
  obtain ⟨slice, hne, hcovers, hwritten⟩ := (cut_lexemes text).exists_slice hl
  rw [hlspan, List.nil_append] at hcovers
  obtain ⟨hlt, hle⟩ := hcovers.bounds hne
  exact ⟨hlt, hle, slice, hcovers, hnames slice hwritten⟩

/-- A dot that stands first in the inner one of two lists, after a comment with a
    character of two bytes. -/
theorem slice_of_parse_error_dot :
    Datum.parse "; é\n(a (. b))" = .error (.misplacedDot ⟨9, 10⟩) ∧
      (Span.mk 9 10).Covers "; é\n(a (. b))".toList ['.'] := by
  have hparse : Datum.parse "; é\n(a (. b))" = .error (.misplacedDot ⟨9, 10⟩) := by cbv
  obtain ⟨-, -, slice, hcovers, rfl⟩ := slice_of_parse_error hparse rfl
  exact ⟨hparse, hcovers⟩

end Errors

end SmallScheme
