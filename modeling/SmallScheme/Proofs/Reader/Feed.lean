import SmallScheme.Datum.Reader
import SmallScheme.Proofs.Reader.Lexing

/-!
# Reading a list of tokens

A reader looks one lexeme ahead and stops at the first that is faulty. Where no
lexeme is, it goes from token to token (`TokenStream.feed`), and nothing depends
on the token ahead: one token takes the reader from the lists that are open to a
`ReaderStep`, and that step says all that matters of it for the tokens to come
(`feed_cons`).

A text says a datum only if all its lexemes are tokens and reading these takes
all of them (`parse_eq_ok_iff`).
-/

namespace SmallScheme

namespace TokenStream

/-- The stream that hands out the tokens `ts`. -/
def ofTokens : List Token → TokenStream
  | [] => ⟨none, []⟩
  | t :: ts => ⟨some t, ts.map .token⟩

/-- Reads the tokens `ts` with the lists in `stack` open. -/
def feed (stack : List OpenList) : List Token → Except ReadError Datum × TokenStream
  | [] => (.error (.unexpectedEnd (missingAtEnd stack)), ⟨none, []⟩)
  | t :: ts => readFrom stack t (ts.map .token)

/-- How reading goes on after a step, with the tokens `ts` to come. -/
def follow (ts : List Token) : ReaderStep → Except ReadError Datum × TokenStream
  | .more stack => feed stack ts
  | .done datum => (.ok datum, ofTokens ts)
  | .failed e => (.error e, ofTokens ts)

theorem feed_cons (stack : List OpenList) (t : Token) (ts : List Token) :
    feed stack (t :: ts) = follow ts (ReaderStep.ofToken stack t) := by
  cases ts with
  | nil =>
    rw [feed, List.map_nil, readFrom]
    cases ReaderStep.ofToken stack t <;> rfl
  | cons next ts =>
    rw [feed, List.map_cons, readFrom]
    cases ReaderStep.ofToken stack t <;> rfl

variable {stack : List OpenList} {t : Token} {ls rest : List Lexeme} {d : Datum}

/-- A datum that is read up to the end of the text is read from tokens only. -/
theorem exists_tokens_of_readFrom (h : readFrom stack t ls = (.ok d, ⟨none, rest⟩)) :
    (∃ ts : List Token, ls = ts.map .token) ∧ rest = [] := by
  induction ls generalizing stack t with
  | nil =>
    rw [readFrom] at h
    cases hstep : ReaderStep.ofToken stack t with
    | done d' =>
      rw [hstep] at h
      cases h
      exact ⟨⟨[], rfl⟩, rfl⟩
    | more stack' | failed e =>
      rw [hstep] at h
      cases h
  | cons l ls ih =>
    cases l with
    | fault e => cases h
    | token next =>
      rw [readFrom] at h
      cases hstep : ReaderStep.ofToken stack t with
      | more stack' =>
        rw [hstep] at h
        obtain ⟨⟨ts, rfl⟩, hrest⟩ := ih h
        exact ⟨⟨next :: ts, rfl⟩, hrest⟩
      | done d' | failed e =>
        rw [hstep] at h
        cases h

theorem readOnly_eq_ok_iff {s : TokenStream} :
    s.readOnly = .ok d ↔ ∃ rest, s.read = (.ok d, ⟨none, rest⟩) := by
  unfold readOnly
  rcases s.read with ⟨e | d', current, rest⟩
  · simp
  · cases current with
    | none => simp
    | some t => rcases h : advance ⟨some t, rest⟩ with ⟨_ | e, _⟩ <;> simp [h]

end TokenStream

open TokenStream

/-- A text says a datum if its lexemes are tokens and reading them takes them
    all. -/
theorem Datum.parse_eq_ok_iff {text : String} {d : Datum} :
    parse text = .ok d ↔ ∃ ts, tokenize text = .ok ts ∧ feed [] ts = (.ok d, ofTokens []) := by
  simp only [parse, tokenize_eq_ok_iff, ofText]
  rcases lexemes text with _ | ⟨t | e, rest⟩
  · refine ⟨fun h => (by cases h), fun ⟨ts, hts, h⟩ => ?_⟩
    obtain rfl := List.map_eq_nil_iff.1 hts.symm
    cases h
  · -- The stream stands at the first token from the beginning.
    change (TokenStream.mk (some t) rest).readOnly = .ok d ↔ _
    rw [readOnly_eq_ok_iff]
    constructor
    · rintro ⟨rest', h⟩
      obtain ⟨⟨ts, rfl⟩, rfl⟩ := exists_tokens_of_readFrom h
      exact ⟨t :: ts, rfl, h⟩
    · rintro ⟨_ | ⟨t', ts⟩, hts, h⟩
      · cases hts
      · cases hts
        exact ⟨[], h⟩
  · refine ⟨fun h => (by cases h), fun ⟨ts, hts, h⟩ => ?_⟩
    cases ts <;> cases hts

end SmallScheme
