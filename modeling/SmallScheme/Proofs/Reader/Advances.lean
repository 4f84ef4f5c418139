import SmallScheme.Proofs.Reader.Splitting
import SmallScheme.Proofs.Reader.Lookahead

/-!
# Advancing through a text

A stream goes on after an advance that fails. It has passed the faulty lexeme then, but
not its current token, and still it does not lose count: whatever was met before, the
next advance deals with the next lexeme (`TokenStream.Deals`), up to the end of the
text and beyond (`TokenStream.deals_after`).

So the tokens of a text are what one advance after the other brings, unless one of them
fails (`TokenStream.tokenize_eq_drain`); and what the lexemes are, faulty ones
included, the grammar says (`TokenStream.advances_follow_lexemes`).
-/

namespace SmallScheme

namespace TokenStream

/-- The stream after `n` advances, those that fail included. -/
def after (s : TokenStream) : Nat → TokenStream
  | 0 => s
  | n + 1 => (s.after n).advance.2

/-- What an advance is to do with the lexeme that comes next, if there is one: a token
    becomes current, a fault is reported and leaves the current token as it is, and at
    the end of the text there is no token any more. -/
def Deals (s : TokenStream) : Option Lexeme → Prop
  | some (.token t) => s.advance.1 = none ∧ s.advance.2.current = some t
  | some (.fault e) => s.advance.1 = some e ∧ s.advance.2.current = s.current
  | none => s.advance.1 = none ∧ s.advance.2.isEnd

/-- The tokens up to the end, one advance for each of them, or the first error. -/
def drain : TokenStream → Except LexicalError (List Token)
  | ⟨none, _⟩ => .ok []
  | ⟨some t, rest⟩ =>
    match _hnext : advance ⟨some t, rest⟩ with
    | (none, next) => next.drain.map (t :: ·)
    | (some e, _) => .error e
termination_by s => s.rest.length + s.current.toList.length
decreasing_by
  rcases rest with _ | ⟨_ | _, rest⟩ <;> cases _hnext <;> simp

/-! ## One advance after another -/

section Advances

variable (s : TokenStream) (n : Nat)

theorem rest_advance : s.advance.2.rest = s.rest.tail := by
  rcases s with ⟨_, _ | ⟨_ | _, _⟩⟩ <;> rfl

theorem deals_head? : s.Deals s.rest.head? := by
  rcases s with ⟨_, _ | ⟨_ | _, _⟩⟩ <;> exact ⟨rfl, rfl⟩

/-- An advance passes one lexeme, whether it fails or not. -/
theorem rest_after : (s.after n).rest = s.rest.drop n := by
  induction n with
  | zero => rfl
  | succ n ih => rw [after, rest_advance, ih, List.tail_drop]

theorem deals_after : (s.after n).Deals s.rest[n]? := by
  have hdeals := (s.after n).deals_head?
  rwa [rest_after, List.head?_drop] at hdeals

end Advances

/-! ## All tokens of a text -/

section Tokens

variable {text : String} {ls : List Lexeme} {e : LexicalError}

theorem drain_eq (t : Token) (ls : List Lexeme) :
    drain ⟨some t, ls⟩ = (ls.mapM Lexeme.result).map (t :: ·) := by
  induction ls generalizing t with
  | nil =>
    rw [drain]
    simp only [advance]
    rw [drain]
    rfl
  | cons l ls ih =>
    rw [drain, List.mapM_cons]
    cases l with
    | fault e => rfl
    | token u =>
      simp only [advance, ih]
      cases ls.mapM Lexeme.result <;> rfl

theorem tokenize_eq_drain (text : String) : tokenize text = (ofText text).bind drain := by
  rw [tokenize, ofText]
  rcases lexemes text with _ | ⟨t | e, ls⟩
  · exact (by rw [drain] : drain ⟨none, []⟩ = .ok []).symm
  · rw [List.mapM_cons]
    refine Eq.trans ?_ (drain_eq t ls).symm
    cases ls.mapM Lexeme.result <;> rfl
  · rfl

theorem mapM_result_of_fault (ts : List Token) (e : LexicalError) (rest : List Lexeme) :
    (ts.map Lexeme.token ++ .fault e :: rest).mapM Lexeme.result = .error e := by
  rw [List.mapM_append, mapM_result_eq_ok_iff.2 rfl, List.mapM_cons]
  rfl

/-- There are no tokens exactly if a lexeme is faulty, and the first fault is why. -/
theorem tokenize_eq_error_iff : tokenize text = .error e ↔ ∃ k, FirstFault (lexemes text) k e := by
  constructor
  · intro h
    obtain ⟨ts, hts⟩ | ⟨ts, e', rest, hrest⟩ := eq_tokens_or_exists_fault (lexemes text)
    · rw [tokenize_eq_ok_iff.2 hts] at h
      cases h
    · rw [tokenize, hrest, mapM_result_of_fault] at h
      cases h
      exact ⟨ts.length, ts, rest, hrest, rfl⟩
  · rintro ⟨-, ts, rest, hrest, -⟩
    rw [tokenize, hrest, mapM_result_of_fault]

end Tokens

/-- The lexemes of a text are those of its one splitting. If the first of them is a token, a
    stream of the text starts at it, and its advances, failing or not, deal with the
    other lexemes one by one. The tokens of the text are those that it brings up to its
    end, and all the lexemes; if one of these is faulty, the first fault is reported. -/
theorem advances_follow_lexemes (text : String) :
    (∀ ls, (∃! s : Splitting, s.Make text.toList ls) ↔ lexemes text = ls) ∧
    (∀ t ls, lexemes text = .token t :: ls →
      ∃ s, ofText text = .ok s ∧ s.current = some t ∧ ∀ i, (s.after i).Deals ls[i]?) ∧
    tokenize text = (ofText text).bind drain ∧
    (∀ ts, tokenize text = .ok ts ↔ lexemes text = ts.map .token) ∧
    ∀ e, tokenize text = .error e ↔ ∃ k, FirstFault (lexemes text) k e := by
  refine ⟨fun _ => existsUnique_make_iff, fun t ls hls => ?_, tokenize_eq_drain text,
    fun _ => tokenize_eq_ok_iff, fun _ => tokenize_eq_error_iff⟩
  have hstream : ofText text = .ok ⟨some t, ls⟩ := by
    rw [ofText, hls]
    rfl
  exact ⟨⟨some t, ls⟩, hstream, rfl, fun i => deals_after ⟨some t, ls⟩ i⟩

/-- Two faults in a row, a token after them, and then the end again and again. -/
theorem advances_follow_lexemes_two_faults :
    ∃ s, ofText "a $ 99999999999999999999 (" = .ok s ∧ s.current = some ⟨.symbol "a", 0, 1⟩ ∧
      (s.after 0).Deals (some (.fault ⟨.strayCharacter '$', 2, 3⟩)) ∧
      (s.after 1).Deals (some (.fault ⟨.integerTooLarge "99999999999999999999", 4, 24⟩)) ∧
      (s.after 2).Deals (some (.token ⟨.openParen, 25, 26⟩)) ∧
      (∀ i, 3 ≤ i → (s.after i).Deals none) ∧
      tokenize "a $ 99999999999999999999 (" = .error ⟨.strayCharacter '$', 2, 3⟩ := by
  have hlexemes : lexemes "a $ 99999999999999999999 (" = [.token ⟨.symbol "a", 0, 1⟩,
      .fault ⟨.strayCharacter '$', 2, 3⟩,
      .fault ⟨.integerTooLarge "99999999999999999999", 4, 24⟩, .token ⟨.openParen, 25, 26⟩] := by
    cbv
  obtain ⟨-, hstream, -, -, herror⟩ := advances_follow_lexemes "a $ 99999999999999999999 ("
  obtain ⟨s, hs, hcurrent, hdeals⟩ := hstream _ _ hlexemes
  refine ⟨s, hs, hcurrent, hdeals 0, hdeals 1, hdeals 2, fun i hi => ?_,
    (herror _).2 ⟨1, [⟨.symbol "a", 0, 1⟩], _, hlexemes, rfl⟩⟩
  have hnone := hdeals i
  rwa [List.getElem?_eq_none hi] at hnone

end TokenStream

end SmallScheme
