import SmallScheme.Datum.Reader
import SmallScheme.Proofs.Reader.Cut

/-!
# Spans lie in the text

The span of a lexeme begins at a character and covers it; so does the span
of a list, since it begins where its bracket does (`Span.Within`). The reader
keeps spans only to name the places of errors, and takes all of them from
lexemes. So a reading error is placed in the text, at the beginning of a
character, if it is placed anywhere (`TokenStream.within_readOnly`).
-/

namespace SmallScheme

open Text

/-- A span of the text `cs` that begins with a character. -/
structure Span.Within (s : Span) (cs : List Char) : Prop where
  /-- The character at its start. -/
  starts : ∃ before c after, cs = before ++ c :: after ∧ utf8Length before = s.start
  /-- It is not empty. -/
  start_lt_stop : s.start < s.stop
  /-- It ends in the text. -/
  stop_le : s.stop ≤ utf8Length cs

variable {cs : List Char}

theorem Span.Within.merge {a b : Span} (ha : a.Within cs) (hb : b.Within cs) :
    (a.merge b).Within cs where
  starts := by
    rcases Nat.le_total a.start b.start with hle | hle
    · simpa [Span.merge, hle] using ha.starts
    · simpa [Span.merge, hle] using hb.starts
  start_lt_stop := by
    have := ha.start_lt_stop
    simp only [Span.merge]
    omega
  stop_le := Nat.max_le.2 ⟨ha.stop_le, hb.stop_le⟩

/-! ## Lexemes -/

namespace Lexeme

/-- The stretch of text that a lexeme is made of. -/
def span : Lexeme → Span
  | token t => t.span
  | fault e => e.span

@[simp] theorem span_ofChars (offset : Nat) (c : Char) (tail : List Char) :
    (ofChars offset c tail).span = ⟨offset, offset + utf8Length (c :: tail)⟩ := by
  rw [ofChars]
  cases TokenKind.ofLexeme c tail <;> rfl

/-- All lexemes lie in the text. -/
def AllWithin (ls : List Lexeme) (cs : List Char) : Prop := ∀ l ∈ ls, l.span.Within cs

end Lexeme

theorem Cut.allWithin {pre : List Char} {ls : List Lexeme} (h : Cut pre cs ls) :
    Lexeme.AllWithin ls (pre ++ cs) := by
  induction h with
  | nil => exact List.forall_mem_nil _
  | @blank pre rest c ls _ _ ih => rwa [List.append_cons]
  | @comment pre comment rest ls _ _ _ ih => rwa [← List.append_assoc]
  | @lexeme pre rest tail c ls _ _ _ _ ih =>
    rw [← List.append_assoc]
    refine List.forall_mem_cons.2 ⟨⟨?_, ?_, ?_⟩, ih⟩
    · exact ⟨pre, c, tail ++ rest, by simp, by rw [Lexeme.span_ofChars]⟩
    · have := c.utf8Size_pos
      simp only [Lexeme.span_ofChars, utf8Length_cons]
      omega
    · simp only [Lexeme.span_ofChars, utf8Length_append]
      omega

theorem allWithin_lexemes (text : String) : Lexeme.AllWithin (lexemes text) text.toList :=
  (cut_lexemes text).allWithin

/-! ## Reading -/

/-- Where an error is said to be. That the text ends too early is said of no
    place. -/
def ReadError.span? : ReadError → Option Span
  | lexical e => some e.span
  | unexpectedToken found _ => some found.span
  | unexpectedEnd _ => none
  | misplacedDot span => some span
  | quoteMark span => some span

/-- The error is placed in the text, if anywhere. -/
def ReadError.Within (e : ReadError) (cs : List Char) : Prop :=
  ∀ span, e.span? = some span → span.Within cs

/-- What an open list keeps of the text lies in it. -/
def OpenList.Within (l : OpenList) (cs : List Char) : Prop :=
  l.bracket.Within cs ∧ ∀ item ∈ l.items, item.2.Within cs

/-- What a stream is still to hand out lies in the text. -/
def TokenStream.Within (s : TokenStream) (cs : List Char) : Prop :=
  (∀ t, s.current = some t → t.span.Within cs) ∧ Lexeme.AllWithin s.rest cs

/-- A list is refused for one of its items. -/
theorem Datum.within_of_ofItems {items : List (Datum × Span)} {pos : Nat} {e : ReadError}
    (h : ofItems items pos = .error e) (hitems : ∀ item ∈ items, item.2.Within cs) :
    e.Within cs := by
  have hmem : ∀ front item back, ((items.drop pos).span fun item => item.1 != dot) =
      (front, item :: back) → item.2.Within cs := fun front item back hspan => by
    rw [List.span_eq_takeWhile_dropWhile, Prod.mk.injEq] at hspan
    have hitem : item ∈ (items.drop pos).dropWhile fun item => item.1 != dot := by simp [hspan.2]
    exact hitems item (List.mem_of_mem_drop ((List.dropWhile_sublist _).subset hitem))
  unfold ofItems at h
  split at h
  · cases h
  rename_i front item back hspan
  have hwithin : (ReadError.misplacedDot item.2).Within cs := fun span heq => by
    cases heq
    exact hmem _ _ _ hspan
  split at h
  · split at h
    · cases h
      exact hwithin
    · cases h
  · cases h
    exact hwithin

/-- What a step leads to. -/
def ReaderStep.Within (cs : List Char) : ReaderStep → Prop
  | more stack => ∀ l ∈ stack, l.Within cs
  | done _ => True
  | failed e => e.Within cs

section Reading

variable {stack : List OpenList} {t : Token} {e : ReadError}

theorem ReaderStep.within_deliver {span : Span} (d : Datum) (hspan : span.Within cs)
    (hstack : ∀ l ∈ stack, l.Within cs) : (deliver d span stack).Within cs := by
  cases stack with
  | nil => exact trivial
  | cons inner outer =>
    obtain ⟨⟨hbracket, hitems⟩, houter⟩ := List.forall_mem_cons.1 hstack
    exact List.forall_mem_cons.2 ⟨⟨hbracket, List.forall_mem_cons.2 ⟨hspan, hitems⟩⟩, houter⟩

/-- A token adds nothing to the places but its own. -/
theorem ReaderStep.within_ofToken (ht : t.span.Within cs) (hstack : ∀ l ∈ stack, l.Within cs) :
    (ofToken stack t).Within cs := by
  have hfailed : ∀ e : ReadError, e.span? = some t.span → (failed e).Within cs :=
    fun e he span hspan => by
      rw [he] at hspan
      cases hspan
      exact ht
  unfold ofToken
  cases t.kind with
  | integer | symbol | dot => exact within_deliver _ ht hstack
  | quote => exact hfailed _ rfl
  | openParen => exact List.forall_mem_cons.2 ⟨⟨ht, List.forall_mem_nil _⟩, hstack⟩
  | closeParen =>
    cases stack with
    | nil => exact hfailed _ rfl
    | cons inner outer =>
      obtain ⟨⟨hbracket, hitems⟩, houter⟩ := List.forall_mem_cons.1 hstack
      dsimp only
      cases hlist : Datum.ofItems inner.items.reverse 0 with
      | ok d => exact within_deliver d (hbracket.merge ht) houter
      | error e => exact Datum.within_of_ofItems hlist (by simpa using hitems)

namespace TokenStream

/-- Reading leaves a stream in the text, and so is the error, if it fails. -/
theorem within_readFrom {ls : List Lexeme} (ht : t.span.Within cs)
    (hstack : ∀ l ∈ stack, l.Within cs) (hls : Lexeme.AllWithin ls cs) :
    (∀ e, (readFrom stack t ls).1 = .error e → e.Within cs) ∧
      (readFrom stack t ls).2.Within cs := by
  induction ls generalizing stack t with
  | nil =>
    have hstep := ReaderStep.within_ofToken ht hstack
    have hend : TokenStream.Within ⟨none, []⟩ cs := ⟨fun _ h => (by cases h), List.forall_mem_nil _⟩
    rw [readFrom]
    cases hof : ReaderStep.ofToken stack t with
    | more stack' =>
      refine ⟨fun e he span hspan => ?_, hend⟩
      cases he
      cases hspan
    | done d => exact ⟨fun _ he => (by cases he), hend⟩
    | failed e' =>
      rw [hof] at hstep
      refine ⟨fun e he => ?_, hend⟩
      cases he
      exact hstep
  | cons l ls ih =>
    obtain ⟨hl, hrest⟩ := List.forall_mem_cons.1 hls
    cases l with
    | fault e' =>
      refine ⟨fun e he span hspan => ?_, fun t' ht' => ?_, hrest⟩
      · cases he
        cases hspan
        exact hl
      · cases ht'
        exact ht
    | token next =>
      have hstep := ReaderStep.within_ofToken ht hstack
      have hnext : TokenStream.Within ⟨some next, ls⟩ cs :=
        ⟨fun _ h => Option.some.inj h ▸ hl, hrest⟩
      rw [readFrom]
      cases hof : ReaderStep.ofToken stack t with
      | more stack' =>
        rw [hof] at hstep
        exact ih hl hstep hrest
      | done d => exact ⟨fun _ he => (by cases he), hnext⟩
      | failed e' =>
        rw [hof] at hstep
        refine ⟨fun e he => ?_, hnext⟩
        cases he
        exact hstep

theorem within_readOnly {s : TokenStream} (hs : s.Within cs) (he : s.readOnly = .error e) :
    e.Within cs := by
  have hread : (∀ e, s.read.1 = .error e → e.Within cs) ∧ s.read.2.Within cs := by
    rw [read]
    cases hcurrent : s.current with
    | none =>
      refine ⟨fun e he span hspan => ?_, hs⟩
      cases he
      cases hspan
    | some t => exact within_readFrom (hs.1 t hcurrent) (List.forall_mem_nil _) hs.2
  unfold readOnly at he
  rcases hresult : s.read with ⟨e' | d, current, rest⟩
  · rw [hresult] at he hread
    cases he
    exact hread.1 _ rfl
  · obtain ⟨hcurrent, hrest⟩ := hresult ▸ hread.2
    rw [hresult] at he
    cases current with
    | none => cases he
    | some found =>
      -- What is left over is named, or a fault right after it.
      rcases rest with _ | ⟨t | fault, rest⟩
      · cases he
        exact fun span hspan => by cases hspan; exact hcurrent found rfl
      · cases he
        exact fun span hspan => by cases hspan; exact hcurrent found rfl
      · cases he
        exact fun span hspan => by cases hspan; exact hrest _ List.mem_cons_self

theorem within_ofText {text : String} {s : TokenStream} (h : ofText text = .ok s) :
    s.Within text.toList := by
  have hall := allWithin_lexemes text
  rw [ofText] at h
  rcases hlexemes : lexemes text with _ | ⟨t | fault, rest⟩
  · rw [hlexemes] at h
    cases h
    exact ⟨fun _ h => (by cases h), List.forall_mem_nil _⟩
  · rw [hlexemes] at h hall
    obtain ⟨ht, hrest⟩ := List.forall_mem_cons.1 hall
    cases h
    exact ⟨fun _ h => Option.some.inj h ▸ ht, hrest⟩
  · rw [hlexemes] at h
    cases h

theorem within_of_ofText_eq_error {text : String} {e : LexicalError} (h : ofText text = .error e) :
    e.span.Within text.toList := by
  have hall := allWithin_lexemes text
  rw [ofText] at h
  rcases hlexemes : lexemes text with _ | ⟨t | fault, rest⟩
  · rw [hlexemes] at h
    cases h
  · rw [hlexemes] at h
    cases h
  · rw [hlexemes] at h hall
    cases h
    exact hall _ List.mem_cons_self

end TokenStream

end Reading

end SmallScheme
