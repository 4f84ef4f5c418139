import SmallScheme.Proofs.Reader.Scan

/-!
# Cutting a text

What the lexer does with the rest of a text, told together with the text before
it (`Cut`): it passes over a blank or a comment, or takes the next lexeme. The
offset of a lexeme is the number of bytes before it, so nothing else has to be
carried along. Facts about the places of lexemes are proved by induction over
the cutting.
-/

namespace SmallScheme

open Text

theorem takeBytes_utf8Length (pre cs : List Char) :
    takeBytes (utf8Length pre) (pre ++ cs) = pre := by
  induction pre with
  | nil =>
    cases cs with
    | nil => rfl
    | cons c cs => simp [takeBytes, c.utf8Size_pos.ne']
  | cons c pre ih => simp [takeBytes, ih]

/-- A lexeme that is a token. -/
theorem ofChars_eq_token {offset : Nat} {c : Char} {tail : List Char} {t : Token}
    (h : Lexeme.ofChars offset c tail = .token t) :
    TokenKind.ofLexeme c tail = .ok t.kind ∧
      t.span = ⟨offset, offset + utf8Length (c :: tail)⟩ := by
  rw [Lexeme.ofChars] at h
  rcases hkind : TokenKind.ofLexeme c tail with e | k
  · rw [hkind] at h
    cases h
  · rw [hkind] at h
    cases h
    exact ⟨rfl, rfl⟩

/-- After `pre`, the characters `cs` are cut into the lexemes `ls`. -/
inductive Cut : List Char → List Char → List Lexeme → Prop
  | nil (pre : List Char) : Cut pre [] []
  | blank {pre rest : List Char} {c : Char} {ls : List Lexeme} (hc : isBlank c)
      (hrest : Cut (pre ++ [c]) rest ls) : Cut pre (c :: rest) ls
  | comment {pre comment rest : List Char} {ls : List Lexeme}
      (hcomment : ∀ c ∈ comment, endsComment c = false) (hend : ∀ c ∈ rest.head?, endsComment c)
      (hrest : Cut (pre ++ ';' :: comment) rest ls) : Cut pre (';' :: comment ++ rest) ls
  | lexeme {pre rest tail : List Char} {c : Char} {ls : List Lexeme} (hblank : isBlank c = false)
      (hcomment : c ≠ ';') (htail : lexemeTail c (tail ++ rest) = tail)
      (hrest : Cut (pre ++ c :: tail) rest ls) :
      Cut pre (c :: tail ++ rest) (Lexeme.ofChars (utf8Length pre) c tail :: ls)

/-- What comes after the longest stretch of characters with a property. -/
theorem drop_length_takeWhile (p : Char → Bool) (cs : List Char) :
    cs.drop (cs.takeWhile p).length = cs.dropWhile p := by
  have h : (cs.takeWhile p ++ cs.dropWhile p).drop (cs.takeWhile p).length = cs.dropWhile p :=
    List.drop_left
  rwa [List.takeWhile_append_dropWhile] at h

theorem cut_lexemesFrom (pre cs : List Char) : Cut pre cs (lexemesFrom (utf8Length pre) cs) := by
  generalize hoffset : utf8Length pre = offset
  fun_induction lexemesFrom offset cs generalizing pre with
  | case1 => exact .nil pre
  | case2 offset c rest hblank ih => exact .blank hblank (ih _ (by simp [hoffset]))
  | case3 offset c rest _ hsemicolon comment =>
    rename_i ih
    obtain rfl := beq_iff_eq.1 hsemicolon
    have hcut := ih (pre ++ ';' :: comment) (by simp [hoffset])
    have hdrop : rest.drop comment.length = rest.dropWhile fun d => !endsComment d :=
      drop_length_takeWhile _ _
    have hsplit : comment ++ rest.drop comment.length = rest := by
      rw [hdrop, List.takeWhile_append_dropWhile]
    rw [show ';' :: rest = ';' :: comment ++ rest.drop comment.length by
      rw [List.cons_append, hsplit]]
    rw [hdrop] at hcut ⊢
    refine .comment (fun c hc => by simpa using List.mem_takeWhile_imp hc) (fun c hc => ?_) hcut
    rw [← List.find?_not_eq_head?_dropWhile] at hc
    simpa using List.find?_some hc
  | case4 offset c rest hblank hsemicolon tail =>
    rename_i ih
    have hcut := ih (pre ++ c :: tail) (by simp [hoffset])
    have hsplit : tail ++ rest.drop tail.length = rest := lexemeTail_append_drop c rest
    rw [show c :: rest = c :: tail ++ rest.drop tail.length by rw [List.cons_append, hsplit],
      ← hoffset]
    rw [← hoffset] at hcut
    exact .lexeme (by simpa using hblank) (by simpa using hsemicolon) (by rw [hsplit]) hcut

theorem cut_lexemes (text : String) : Cut [] text.toList (lexemes text) :=
  cut_lexemesFrom [] text.toList

end SmallScheme
