import SmallScheme.Proofs.Reader.Lexis

/-!
# Line by line

The lexer keeps nothing in mind at the end of a line: a comment ends there, no
lexeme, faulty or not, goes on beyond it, and the end of the line itself is a
blank. So the lexemes of two parts of a text, the second of which begins with the
end of a line, are those of the first part and then those of the second one, no
matter what the first part ends with (`Cut.lexemesFrom_append`).

Where a stretch of text begins changes the places of its lexemes and nothing
else (`lexemesFrom_add`). Both together give the tokens of two texts joined by a
line feed (`tokenize_append_line`).
-/

namespace SmallScheme

open Text

/-! ## Moving lexemes -/

/-- The span moved on by `n` bytes. -/
def Span.shift (n : Nat) (s : Span) : Span := ⟨n + s.start, n + s.stop⟩

/-- The token moved on by `n` bytes. -/
def Token.shift (n : Nat) (t : Token) : Token := { t with span := t.span.shift n }

/-- The error moved on by `n` bytes. -/
def LexicalError.shift (n : Nat) (e : LexicalError) : LexicalError :=
  { e with span := e.span.shift n }

/-- The lexeme moved on by `n` bytes. -/
def Lexeme.shift (n : Nat) : Lexeme → Lexeme
  | token t => token (t.shift n)
  | fault e => fault (e.shift n)

theorem Lexeme.ofChars_add (n offset : Nat) (c : Char) (tail : List Char) :
    ofChars (n + offset) c tail = (ofChars offset c tail).shift n := by
  simp only [ofChars, Nat.add_assoc]
  cases TokenKind.ofLexeme c tail <;> rfl

/-- A stretch of text that begins `n` bytes further on has the same lexemes, `n`
    bytes further on. -/
theorem lexemesFrom_add (n offset : Nat) (cs : List Char) :
    lexemesFrom (n + offset) cs = (lexemesFrom offset cs).map (Lexeme.shift n) := by
  fun_induction lexemesFrom offset cs with
  | case1 => rw [lexemesFrom, List.map_nil]
  | case2 offset c rest hblank ih => rw [lexemesFrom, if_pos hblank, Nat.add_assoc, ih]
  | case3 offset c rest hblank hsemicolon comment ih =>
    rw [lexemesFrom, if_neg hblank, if_pos hsemicolon, ← ih, ← Nat.add_assoc]
  | case4 offset c rest hblank hsemicolon tail ih =>
    rw [lexemesFrom, if_neg hblank, if_neg hsemicolon, List.map_cons, ← ih, ← Lexeme.ofChars_add,
      ← Nat.add_assoc]

theorem mapM_result_map_shift (n : Nat) (ls : List Lexeme) :
    (ls.map (Lexeme.shift n)).mapM Lexeme.result =
      match ls.mapM Lexeme.result with
      | .ok ts => .ok (ts.map (Token.shift n))
      | .error e => .error (e.shift n) := by
  induction ls with
  | nil => rfl
  | cons l ls ih =>
    rw [List.map_cons, List.mapM_cons, List.mapM_cons, ih]
    cases l with
    | fault e => rfl
    | token t => cases ls.mapM Lexeme.result <;> rfl

theorem mapM_result_append (ls ls' : List Lexeme) :
    (ls ++ ls').mapM Lexeme.result =
      match ls.mapM Lexeme.result, ls'.mapM Lexeme.result with
      | .ok ts, .ok us => .ok (ts ++ us)
      | .ok _, .error e => .error e
      | .error e, _ => .error e := by
  rw [List.mapM_append]
  cases ls.mapM Lexeme.result with
  | error e => rfl
  | ok ts => cases ls'.mapM Lexeme.result <;> rfl

/-! ## The seam -/

section Seam

variable {c : Char} {tail rest line : List Char}

/-- The head of a text that ends before the end of a line, or of that line. -/
theorem forall_head?_append {p : Char → Prop} (hrest : ∀ d ∈ rest.head?, p d)
    (hline : ∀ d ∈ line.head?, p d) : ∀ d ∈ (rest ++ line).head?, p d := by
  cases rest with
  | nil => exact hline
  | cons d rest => exact hrest

/-- A lexeme that ends where it does goes on neither there nor at a delimiter. -/
theorem lexemeTail_append (htail : lexemeTail c (tail ++ rest) = tail) (hline : Closed line) :
    lexemeTail c (tail ++ (rest ++ line)) = tail := by
  have hdigit : ∀ d ∈ line.head?, d.isDigit = false := fun d hd => by
    by_contra h
    exact Bool.false_ne_true
      ((isDelimiter_of_isDigit (eq_true_of_ne_false h)).symm.trans (hline d hd))
  by_cases hc : c.isDigit ∨ isSign c
  · rw [lexemeTail_eq_iff_of_number hc] at htail ⊢
    exact ⟨htail.1, forall_head?_append htail.2 hdigit⟩
  by_cases hstart : isSymbolStart c
  · rw [lexemeTail_eq_iff_of_symbol hstart] at htail ⊢
    exact ⟨htail.1, forall_head?_append htail.2 hline⟩
  · have hnone : ∀ cs, lexemeTail c cs = [] := fun cs => by
      rw [lexemeTail, if_neg (by simpa using hc), if_neg hstart]
    rw [← htail, hnone, hnone]

/-- The end of a line ends a comment and is a delimiter. -/
theorem isDelimiter_of_endsComment (h : endsComment c) : isDelimiter c := by
  have : c = '\n' ∨ c = '\r' := by simpa [endsComment] using h
  rcases this with rfl | rfl <;> decide

/-- The lexer goes into the end of a line as into the end of the text. -/
theorem Cut.lexemesFrom_append {pre cs : List Char} {ls : List Lexeme} (h : Cut pre cs ls)
    (hline : ∀ d ∈ line.head?, endsComment d) :
    lexemesFrom (utf8Length pre) (cs ++ line) =
      ls ++ lexemesFrom (utf8Length (pre ++ cs)) line := by
  have hclosed : Closed line := fun d hd => isDelimiter_of_endsComment (hline d hd)
  induction h with
  | nil pre => rw [List.append_nil, List.nil_append, List.nil_append]
  | @blank pre rest c ls hc _ ih =>
    rw [List.cons_append, lexemesFrom, if_pos hc, List.append_cons, ← ih]
    simp
  | @comment pre comment rest ls hcomment hend _ ih =>
    have hcut := takeWhile_comment hcomment (forall_head?_append hend hline)
    rw [List.append_assoc, List.cons_append, lexemesFrom, if_neg (by decide), if_pos (by decide)]
    simp only [hcut, List.drop_left]
    rw [← utf8Length_append, ih, List.append_assoc]
  | @lexeme pre rest tail c ls hblank hcomment htail _ ih =>
    rw [List.append_assoc, List.cons_append, lexemesFrom, if_neg (by simp [hblank]),
      if_neg (by simpa using hcomment)]
    simp only [lexemeTail_append htail hclosed, List.drop_left]
    rw [← utf8Length_append, ih, List.append_assoc, List.cons_append, List.cons_append]

end Seam

/-- The line feed between two texts takes one byte, and is no part of any lexeme. -/
theorem lexemes_append_line (a b : String) :
    lexemes (a ++ "\n" ++ b) =
      lexemes a ++ (lexemes b).map (Lexeme.shift (utf8Length a.toList + 1)) := by
  have hline : ∀ d ∈ ('\n' :: b.toList).head?, endsComment d := by simp [endsComment]
  have htext : (a ++ "\n" ++ b).toList = a.toList ++ '\n' :: b.toList := by simp
  calc lexemes (a ++ "\n" ++ b)
    _ = lexemesFrom 0 (a.toList ++ '\n' :: b.toList) := by rw [lexemes, htext]
    _ = lexemes a ++ lexemesFrom (utf8Length a.toList) ('\n' :: b.toList) :=
      (cut_lexemes a).lexemesFrom_append hline
    _ = lexemes a ++ lexemesFrom (utf8Length a.toList + 1 + 0) b.toList := by
      rw [lexemesFrom, if_pos (by decide)]
      rfl
    _ = lexemes a ++ (lexemes b).map (Lexeme.shift (utf8Length a.toList + 1)) :=
      congrArg (lexemes a ++ ·) (lexemesFrom_add _ 0 b.toList)

/-- The tokens of two texts joined by a line feed are the tokens of the first and
    then those of the second one, as many bytes further on as the first one takes
    with the line feed. An error in the first text is the error of both together; if
    there is none, one in the second text is, at its new place. -/
theorem tokenize_append_line (a b : String) :
    tokenize (a ++ "\n" ++ b) =
      match tokenize a, tokenize b with
      | .ok ts, .ok us => .ok (ts ++ us.map (Token.shift (utf8Length a.toList + 1)))
      | .ok _, .error e => .error (e.shift (utf8Length a.toList + 1))
      | .error e, _ => .error e := by
  rw [tokenize, lexemes_append_line, mapM_result_append, mapM_result_map_shift, ← tokenize,
    ← tokenize]
  cases tokenize a with
  | error e => rfl
  | ok ts => cases tokenize b <;> rfl

-- The comment ends with its line, and `é` in it takes two bytes.
example : tokenize ("+ ;é" ++ "\n" ++ "12@") = .error ⟨.strayCharacter '@', 8, 9⟩ := by cbv

end SmallScheme
