import SmallScheme.Proofs.Reader.Dots
import SmallScheme.Proofs.Reader.Lookahead

/-!
# Reading datum by datum

What is read of a text by one reading after another, up to its end, going on after
every error (`ReadsAll`). A stream moves by advances only, and a token is *taken in*
by the advance that goes past it; an advance that fails goes past a fault instead,
and leaves the token current (`Passes`). So what is still to come of the text has
been taken in or met, each token and each fault once and in its order, or is still
to come (`Passes.eq_append`).

A reading stops for one of four reasons, each a matter of the tokens that it has
taken in (`Stops`): they are a datum, the last of them is out of place, or they
are a datum cut short, by a fault or by the end of the text. It takes in a token or
meets a fault, so there are no more readings than lexemes (`readings_of_text`).
-/

namespace SmallScheme

namespace Lexeme

/-- The token that a lexeme is, if it is one. -/
def token? : Lexeme → Option Token
  | token t => some t
  | fault _ => none

/-- The error that a lexeme is, if it is one. -/
def fault? : Lexeme → Option LexicalError
  | token _ => none
  | fault e => some e

theorem length_eq_tokens_add_faults (ls : List Lexeme) :
    ls.length = (ls.filterMap token?).length + (ls.filterMap fault?).length := by
  induction ls with
  | nil => rfl
  | cons l ls ih =>
    cases l with
    | token t =>
      simp only [List.filterMap_cons, token?, fault?, List.length_cons]
      omega
    | fault e =>
      simp only [List.filterMap_cons, token?, fault?, List.length_cons]
      omega

end Lexeme

/-- What a token leads to, in terms of the tokens: `before` are a datum cut short, and
    `t` is the next one. -/
def ReaderStep.Tells (before : List Token) (t : Token) : ReaderStep → Prop
  | more _ => Unclosed (before ++ [t])
  | done d => Writes ((before ++ [t]).map Token.kind) d
  | failed e => OutOfPlace before t e

namespace TokenStream

open ReaderStep

/-- The tokens still to be taken in, the current one first. -/
def pending (s : TokenStream) : List Token :=
  match s.current with
  | none => []
  | some t => t :: s.rest.filterMap Lexeme.token?

/-- The faults still to be met. -/
def faults (s : TokenStream) : List LexicalError :=
  match s.current with
  | none => []
  | some _ => s.rest.filterMap Lexeme.fault?

/-- Advances lead from one stream to another, past the tokens `taken` and the faults
    `met`. -/
inductive Passes : TokenStream → List Token → List LexicalError → TokenStream → Prop
  | refl (s : TokenStream) : Passes s [] [] s
  | token {t : Token} {rest : List Lexeme} {s s' : TokenStream} {taken : List Token}
      {met : List LexicalError} (hadvance : advance ⟨some t, rest⟩ = (none, s))
      (hpasses : Passes s taken met s') : Passes ⟨some t, rest⟩ (t :: taken) met s'
  | fault {t : Token} {rest : List Lexeme} {s s' : TokenStream} {e : LexicalError}
      {taken : List Token} {met : List LexicalError}
      (hadvance : advance ⟨some t, rest⟩ = (some e, s)) (hpasses : Passes s taken met s') :
      Passes ⟨some t, rest⟩ taken (e :: met) s'

/-- A reading of one datum. -/
structure Reading where
  /-- The tokens taken in. -/
  taken : List Token
  /-- The faults met. -/
  met : List LexicalError
  /-- What is answered. -/
  answer : Except ReadError Datum
  /-- The stream that is left. -/
  left : TokenStream

/-- Why a reading stops. -/
inductive Reading.Stops : Reading → Prop
  /-- The tokens taken in write a datum. -/
  | datum {taken : List Token} {d : Datum} (left : TokenStream)
      (h : Writes (taken.map Token.kind) d) : Stops ⟨taken, [], .ok d, left⟩
  /-- The last token taken in is out of place. -/
  | outOfPlace {before : List Token} {t : Token} {e : ReadError} (left : TokenStream)
      (h : OutOfPlace before t e) : Stops ⟨before ++ [t], [], .error e, left⟩
  /-- A fault is met, and the token current then is not taken in. -/
  | fault {taken : List Token} (e : LexicalError) (t : Token) (rest : List Lexeme)
      (h : Unclosed taken) : Stops ⟨taken, [e], .error (.lexical e), some t, rest⟩
  /-- The end is met. -/
  | ended {taken : List Token} (h : Unclosed taken) (hne : taken ≠ []) :
      Stops ⟨taken, [], .error (.unexpectedEnd .closeParen), none, []⟩

/-- The readings made of a stream one after another, as long as there is a token. -/
inductive ReadsAll : TokenStream → List Reading → Prop
  | stop {s : TokenStream} (h : s.isEnd = true) : ReadsAll s []
  | read {s : TokenStream} {r : Reading} {rs : List Reading} (h : s.isEnd = false)
      (hread : s.read = (r.answer, r.left)) (hpasses : s.Passes r.taken r.met r.left)
      (hrest : ReadsAll r.left rs) : ReadsAll s (r :: rs)

/-! ## Nothing is lost or repeated -/

section Passing

variable {s s' : TokenStream} {t : Token} {e : LexicalError} {rest : List Lexeme}
  {taken : List Token} {met : List LexicalError} {rs : List Reading}

theorem of_advance_eq_none (h : advance ⟨some t, rest⟩ = (none, s)) :
    pending ⟨some t, rest⟩ = t :: s.pending ∧ faults ⟨some t, rest⟩ = s.faults := by
  rcases rest with _ | ⟨u | e, rest⟩
  · cases h
    exact ⟨rfl, rfl⟩
  · cases h
    exact ⟨rfl, rfl⟩
  · cases h

theorem of_advance_eq_some (h : advance ⟨some t, rest⟩ = (some e, s)) :
    pending ⟨some t, rest⟩ = s.pending ∧ faults ⟨some t, rest⟩ = e :: s.faults := by
  rcases rest with _ | ⟨u | e, rest⟩
  · cases h
  · cases h
  · cases h
    exact ⟨rfl, rfl⟩

/-- What was still to come has been passed, or is still to come. -/
theorem Passes.eq_append (h : s.Passes taken met s') :
    s.pending = taken ++ s'.pending ∧ s.faults = met ++ s'.faults := by
  induction h with
  | refl s => exact ⟨rfl, rfl⟩
  | token hadvance _ ih =>
    obtain ⟨hpending, hfaults⟩ := of_advance_eq_none hadvance
    rw [hpending, hfaults, ih.1, ih.2]
    exact ⟨rfl, rfl⟩
  | fault hadvance _ ih =>
    obtain ⟨hpending, hfaults⟩ := of_advance_eq_some hadvance
    rw [hpending, hfaults, ih.1, ih.2]
    exact ⟨rfl, rfl⟩

theorem passes_ofTokens (ts rest : List Token) :
    (ofTokens (ts ++ rest)).Passes ts [] (ofTokens rest) := by
  induction ts with
  | nil => exact .refl _
  | cons t ts ih =>
    refine .token ?_ ih
    rw [List.append_eq]
    rcases ts ++ rest with _ | ⟨u, more⟩ <;> rfl

/-- There is one way only to read to the end. -/
theorem ReadsAll.unique {rs' : List Reading} (h : s.ReadsAll rs) (h' : s.ReadsAll rs') :
    rs = rs' := by
  induction h generalizing rs' with
  | stop hend =>
    cases h' with
    | stop => rfl
    | read hmore => exact absurd hend (by simp [hmore])
  | @read s r rs hmore hread hpasses _ ih =>
    cases h' with
    | stop hend => exact absurd hend (by simp [hmore])
    | @read _ r' rs' _ hread' hpasses' hrest' =>
      obtain ⟨taken, met, answer, left⟩ := r
      obtain ⟨taken', met', answer', left'⟩ := r'
      obtain ⟨rfl, rfl⟩ := Prod.mk.inj (hread.symm.trans hread')
      obtain ⟨hpending, hfaults⟩ := hpasses.eq_append
      obtain ⟨hpending', hfaults'⟩ := hpasses'.eq_append
      obtain rfl : taken = taken' := List.append_cancel_right (hpending.symm.trans hpending')
      obtain rfl : met = met' := List.append_cancel_right (hfaults.symm.trans hfaults')
      rw [ih hrest']

/-- Nothing is to come at the end. -/
theorem pending_and_faults_of_isEnd (h : s.isEnd = true) : s.pending = [] ∧ s.faults = [] := by
  have hnone : s.current = none := Option.isNone_iff_eq_none.1 h
  rw [pending, faults, hnone]
  exact ⟨rfl, rfl⟩

theorem ReadsAll.flatMap_eq (h : s.ReadsAll rs) :
    rs.flatMap (·.taken) = s.pending ∧ rs.flatMap (·.met) = s.faults := by
  induction h with
  | stop hend =>
    obtain ⟨hpending, hfaults⟩ := pending_and_faults_of_isEnd hend
    exact ⟨hpending.symm, hfaults.symm⟩
  | read _ _ hpasses _ ih =>
    rw [List.flatMap_cons, List.flatMap_cons, ih.1, ih.2, hpasses.eq_append.1, hpasses.eq_append.2]
    exact ⟨rfl, rfl⟩

end Passing

/-! ## One reading -/

section Step

variable {before : List Token} {stack : List OpenList} {t : Token}

/-- The last of some tokens is always taken in. -/
theorem feed_singleton_snd (stack : List OpenList) (t : Token) :
    (feed stack [t]).2 = ofTokens [] := by
  rw [feed_cons]
  cases ofToken stack t <;> rfl

/-! With one more token in sight, it shows where a token has led to. -/

theorem eq_done_of_follow {step : ReaderStep} {d : Datum}
    (h : follow [t] step = (.ok d, ofTokens [t])) : step = done d := by
  cases step with
  | more stack => cases (feed_singleton_snd stack t).symm.trans (congrArg Prod.snd h)
  | done d' =>
    cases h
    rfl
  | failed e => cases h

theorem eq_failed_of_follow {step : ReaderStep} {e : ReadError}
    (h : follow [t] step = (.error e, ofTokens [t])) : step = failed e := by
  cases step with
  | more stack => cases (feed_singleton_snd stack t).symm.trans (congrArg Prod.snd h)
  | done d => cases h
  | failed e' =>
    cases h
    rfl

theorem exists_eq_more_of_follow {step : ReaderStep} (h : (follow [t] step).2 = ofTokens []) :
    ∃ stack, step = more stack := by
  cases step with
  | more stack => exact ⟨stack, rfl⟩
  | done d | failed e => cases h

theorem snd_follow_ne (step : ReaderStep) : (follow [t] step).2 ≠ ofTokens [t, t] := by
  intro h
  cases step with
  | more stack => cases (feed_singleton_snd stack t).symm.trans h
  | done d | failed e => cases h

/-- A token after a datum cut short leads to a datum cut short, completes it, or is out
    of place; and the reader goes on, is done or fails. -/
theorem tells_ofToken (hbefore : Unclosed before)
    (hplain : .symbol "." ∉ (before ++ [t]).map Token.kind)
    (hstack : ∀ rest, feed [] (before ++ rest) = feed stack rest) :
    (ofToken stack t).Tells before t := by
  have hfeed : feed [] (before ++ t :: [t]) = follow [t] (ofToken stack t) := by
    rw [hstack, feed_cons]
  have hsplit : before ++ t :: [t] = (before ++ [t]) ++ [t] := by rw [List.append_assoc]; rfl
  obtain ⟨e, hout⟩ | hopen | ⟨d, hd⟩ := hbefore.snoc t
  · have hplain' : .symbol "." ∉ before.map Token.kind := fun hmem =>
      hplain (by rw [List.map_append]; exact List.mem_append_left _ hmem)
    obtain hread | ⟨d, hread, -⟩ := hout.feed hplain' [t]
    · rw [eq_failed_of_follow (hfeed.symm.trans hread)]
      exact hout
    · exact absurd (congrArg Prod.snd (hfeed.symm.trans hread)) (snd_follow_ne _)
  · obtain ⟨stack'', -, hread⟩ := hopen.feed hplain [t]
    rw [← hsplit, hfeed] at hread
    obtain ⟨stack', hof⟩ := exists_eq_more_of_follow
      ((congrArg Prod.snd hread).trans (feed_singleton_snd stack'' t))
    rw [hof]
    exact hopen
  · obtain ⟨span, hread⟩ := hd.feed hplain (before ++ [t]) rfl [] [t]
    rw [← hsplit, hfeed] at hread
    rw [eq_done_of_follow hread]
    exact hd

/-- With a datum cut short, what is missing at the end is a close bracket. -/
theorem missingAtEnd_of_unclosed (hbefore : Unclosed before) (hne : before ≠ [])
    (hplain : .symbol "." ∉ before.map Token.kind) (hstack : feed [] before = feed stack []) :
    missingAtEnd stack = .closeParen := by
  obtain ⟨stack', hnil, hfeed⟩ := hbefore.feed hplain []
  rw [List.append_nil, hstack] at hfeed
  have hmissing : missingAtEnd stack = missingAtEnd stack' :=
    ReadError.unexpectedEnd.inj (Except.error.inj (congrArg Prod.fst hfeed))
  rw [hmissing]
  cases stack' with
  | nil => exact absurd (hnil.1 rfl) hne
  | cons l stack' => rfl

/-- A reading that has taken in the tokens `before`, which are a datum cut short, takes
    in more of them until it stops. -/
theorem exists_passes_of_readFrom (ls : List Lexeme) (hbefore : Unclosed before)
    (hplain : .symbol "." ∉ (before ++ pending ⟨some t, ls⟩).map Token.kind)
    (hstack : ∀ rest, feed [] (before ++ rest) = feed stack rest) :
    ∃ taken met, Passes ⟨some t, ls⟩ taken met (readFrom stack t ls).2 ∧
      Reading.Stops ⟨before ++ taken, met, (readFrom stack t ls).1, (readFrom stack t ls).2⟩ := by
  induction ls generalizing before stack t with
  | nil =>
    have htells : (ofToken stack t).Tells before t := tells_ofToken hbefore hplain hstack
    have hfeed : feed [] (before ++ [t]) = follow [] (ofToken stack t) := by rw [hstack, feed_cons]
    rw [readFrom]
    cases hof : ofToken stack t with
    | more stack' =>
      rw [hof] at htells hfeed
      have hmissing := missingAtEnd_of_unclosed htells (by simp) hplain hfeed
      simp only [hmissing]
      exact ⟨[t], [], .token rfl (.refl _), .ended htells (by simp)⟩
    | done d =>
      rw [hof] at htells
      exact ⟨[t], [], .token rfl (.refl _), .datum _ htells⟩
    | failed e =>
      rw [hof] at htells
      exact ⟨[t], [], .token rfl (.refl _), .outOfPlace _ htells⟩
  | cons l ls ih =>
    cases l with
    | fault e =>
      refine ⟨[], [e], .fault rfl (.refl _), ?_⟩
      rw [List.append_nil]
      exact .fault e t ls hbefore
    | token next =>
      -- The token is taken in with the next one in sight.
      have hplain' : .symbol "." ∉ (before ++ [t] ++ pending ⟨some next, ls⟩).map Token.kind := by
        rw [List.append_assoc]
        exact hplain
      have htells : (ofToken stack t).Tells before t := by
        refine tells_ofToken hbefore (fun hmem => hplain' ?_) hstack
        rw [List.map_append]
        exact List.mem_append_left _ hmem
      rw [readFrom]
      cases hof : ofToken stack t with
      | more stack' =>
        rw [hof] at htells
        obtain ⟨taken, met, hpasses, hstops⟩ := ih htells hplain' fun rest => by
          rw [List.append_assoc, hstack, List.singleton_append, feed_cons, hof, follow]
        rw [List.append_assoc] at hstops
        exact ⟨t :: taken, met, .token rfl hpasses, hstops⟩
      | done d =>
        rw [hof] at htells
        exact ⟨[t], [], .token rfl (.refl _), .datum _ htells⟩
      | failed e =>
        rw [hof] at htells
        exact ⟨[t], [], .token rfl (.refl _), .outOfPlace _ htells⟩

end Step

/-- A reading takes in a token or meets a fault. -/
theorem Reading.Stops.pos {r : Reading} (h : r.Stops) : 0 < r.taken.length + r.met.length := by
  have hpos : ∀ (taken : List Token) (met : List LexicalError), taken ≠ [] →
      0 < taken.length + met.length := by
    intro taken met hne
    exact Nat.add_pos_left (List.length_pos_iff.2 hne) _
  cases h with
  | datum _ h => exact hpos _ _ fun hnil => h.ne_nil (List.map_eq_nil_iff.2 hnil)
  | outOfPlace => exact hpos _ _ (by simp)
  | fault => exact Nat.add_pos_right _ Nat.one_pos
  | ended _ hne => exact hpos _ _ hne

/-! ## All readings -/

section Loop

variable {s : TokenStream}

/-- As long as there is a token, there is a reading. -/
theorem exists_reading (hmore : s.isEnd = false)
    (hplain : .symbol "." ∉ s.pending.map Token.kind) :
    ∃ r : Reading, s.read = (r.answer, r.left) ∧ s.Passes r.taken r.met r.left ∧ r.Stops := by
  obtain ⟨_ | t, ls⟩ := s
  · cases hmore
  · have hstack : ∀ rest, feed [] ([] ++ rest) = feed [] rest := fun _ => rfl
    obtain ⟨taken, met, hpasses, hstops⟩ := exists_passes_of_readFrom ls .nil hplain hstack
    exact ⟨⟨taken, met, _, _⟩, rfl, hpasses, hstops⟩

/-- Reading comes to the end, and every reading on the way stops for a reason. -/
theorem exists_readsAll (hplain : .symbol "." ∉ s.pending.map Token.kind) :
    ∃ rs, s.ReadsAll rs ∧ rs.length ≤ s.pending.length + s.faults.length ∧ ∀ r ∈ rs, r.Stops := by
  -- What is still to come gets less with every reading.
  induction hn : s.pending.length + s.faults.length using Nat.strongRecOn generalizing s with
  | ind n ih =>
    cases hend : s.isEnd with
    | true => exact ⟨[], .stop hend, Nat.zero_le _, List.forall_mem_nil _⟩
    | false =>
      obtain ⟨r, hread, hpasses, hstops⟩ := exists_reading hend hplain
      obtain ⟨hpending, hfaults⟩ := hpasses.eq_append
      have hpos := hstops.pos
      rw [hpending, hfaults, List.length_append, List.length_append] at hn
      have hplain' : .symbol "." ∉ r.left.pending.map Token.kind := by
        rw [hpending, List.map_append] at hplain
        exact fun hmem => hplain (List.mem_append_right _ hmem)
      obtain ⟨rs, hrs, hlength, hall⟩ := ih _ (by omega) hplain' rfl
      refine ⟨r :: rs, .read hend hread hpasses hrs, ?_, List.forall_mem_cons.2 ⟨hstops, hall⟩⟩
      rw [List.length_cons]
      omega

/-- Data one after another are read one after another. -/
theorem exists_readsAll_of_data {items : List (List Token × Datum)}
    (h : ∀ item ∈ items, Writes (item.1.map Token.kind) item.2)
    (hplain : .symbol "." ∉ (items.flatMap (·.1)).map Token.kind) :
    ∃ rs, (ofTokens (items.flatMap (·.1))).ReadsAll rs ∧ rs.map (·.taken) = items.map (·.1) ∧
      rs.map (·.answer) = items.map fun item => .ok item.2 := by
  induction items with
  | nil => exact ⟨[], .stop rfl, rfl, rfl⟩
  | cons item items ih =>
    obtain ⟨hitem, hitems⟩ := List.forall_mem_cons.1 h
    rw [List.flatMap_cons, List.map_append, List.mem_append, not_or] at hplain
    obtain ⟨rs, hrs, htaken, hanswer⟩ := ih hitems hplain.2
    obtain ⟨ts, d⟩ := item
    obtain ⟨span, hfeed⟩ := hitem.feed hplain.1 ts rfl [] (items.flatMap (·.1))
    have hpasses := passes_ofTokens ts (items.flatMap (·.1))
    rw [List.flatMap_cons]
    obtain ⟨t, ts, rfl⟩ := List.exists_cons_of_ne_nil fun hnil =>
      hitem.ne_nil (List.map_eq_nil_iff.2 hnil)
    refine ⟨⟨t :: ts, [], .ok d, _⟩ :: rs, .read rfl hfeed hpasses hrs, ?_, ?_⟩
    · rw [List.map_cons, htaken, List.map_cons]
    · rw [List.map_cons, hanswer, List.map_cons]

theorem of_ofText {text : String} (h : ofText text = .ok s) :
    s.pending = (lexemes text).filterMap Lexeme.token? ∧
      s.faults = (lexemes text).filterMap Lexeme.fault? := by
  unfold ofText at h
  rcases hls : lexemes text with _ | ⟨t | e, rest⟩ <;> rw [hls] at h
  · cases h
    exact ⟨rfl, rfl⟩
  · cases h
    exact ⟨rfl, rfl⟩
  · cases h

theorem eq_ofTokens_of_ofText {text : String} {ts : List Token} (h : ofText text = .ok s)
    (hts : tokenize text = .ok ts) : s = ofTokens ts := by
  rw [ofText, tokenize_eq_ok_iff.1 hts] at h
  cases ts with
  | nil =>
    cases h
    rfl
  | cons t ts =>
    cases h
    rfl

end Loop

end TokenStream

open TokenStream

/-- The readings of a text, if its first lexeme is a token, come to an end, after as
    many as there are lexemes at most. They take in all tokens and meet all faults,
    each once and in order, and each of them stops for a reason. If the text is data
    one after another, these are what is read. -/
theorem readings_of_text {text : String} {s : TokenStream} (h : ofText text = .ok s) :
    ∃ rs, s.ReadsAll rs ∧ rs.length ≤ (lexemes text).length ∧
      rs.flatMap (·.taken) = (lexemes text).filterMap Lexeme.token? ∧
      rs.flatMap (·.met) = (lexemes text).filterMap Lexeme.fault? ∧ (∀ r ∈ rs, r.Stops) ∧
      ∀ items : List (List Token × Datum),
        (∀ item ∈ items, Writes (item.1.map Token.kind) item.2) →
        tokenize text = .ok (items.flatMap (·.1)) →
        rs.map (·.taken) = items.map (·.1) ∧
          rs.map (·.answer) = items.map fun item => .ok item.2 := by
  obtain ⟨hpending, hfaults⟩ := of_ofText h
  have hplain : .symbol "." ∉ s.pending.map Token.kind := by
    have hmem : ∀ t ∈ s.pending, .token t ∈ lexemes text := by
      intro t ht
      rw [hpending] at ht
      obtain ⟨_ | _, hl, htoken⟩ := List.mem_filterMap.1 ht
      · cases htoken
        exact hl
      · cases htoken
    exact dot_not_mem_of_lexemes hmem
  obtain ⟨rs, hrs, hlength, hstops⟩ := exists_readsAll hplain
  obtain ⟨htaken, hmet⟩ := hrs.flatMap_eq
  refine ⟨rs, hrs, ?_, htaken.trans hpending, hmet.trans hfaults, hstops,
    fun items hitems hts => ?_⟩
  · rwa [hpending, hfaults, ← Lexeme.length_eq_tokens_add_faults] at hlength
  · obtain rfl := eq_ofTokens_of_ofText h hts
    obtain ⟨rs', hrs', hmap⟩ := exists_readsAll_of_data hitems (dot_not_mem_of_tokenize hts)
    rwa [hrs.unique hrs']

/-- A fault after the bracket leaves `b` for the second reading, and the list is
    forgotten; and two data on a line. -/
theorem readings_of_text_fault :
    (∃ s, ofText "(b $) 1" = .ok s ∧ ∃ rs, s.ReadsAll rs ∧ rs.length ≤ 5 ∧
      rs.flatMap (·.taken) = [⟨.openParen, 0, 1⟩, ⟨.symbol "b", 1, 2⟩, ⟨.closeParen, 4, 5⟩,
        ⟨.integer ⟨1, by decide⟩, 6, 7⟩] ∧
      rs.flatMap (·.met) = [⟨.strayCharacter '$', 3, 4⟩]) ∧
    ∃ s, ofText "b ()" = .ok s ∧ ∃ rs, s.ReadsAll rs ∧
      rs.map (·.answer) = [.ok (.symbol "b"), .ok .nil] := by
  constructor
  · have hlexemes : lexemes "(b $) 1" = [.token ⟨.openParen, 0, 1⟩, .token ⟨.symbol "b", 1, 2⟩,
        .fault ⟨.strayCharacter '$', 3, 4⟩, .token ⟨.closeParen, 4, 5⟩,
        .token ⟨.integer ⟨1, by decide⟩, 6, 7⟩] := by cbv
    have hs : ofText "(b $) 1" = .ok ⟨some ⟨.openParen, 0, 1⟩, (lexemes "(b $) 1").tail⟩ := by
      rw [ofText, hlexemes]
      rfl
    obtain ⟨rs, hrs, hlength, htaken, hmet, -, -⟩ := readings_of_text hs
    rw [hlexemes] at hlength htaken hmet
    exact ⟨_, hs, rs, hrs, hlength, htaken, hmet⟩
  · have hts : tokenize "b ()" = .ok [⟨.symbol "b", 0, 1⟩, ⟨.openParen, 2, 3⟩,
        ⟨.closeParen, 3, 4⟩] := by cbv
    have hs : ofText "b ()" = .ok (ofTokens [⟨.symbol "b", 0, 1⟩, ⟨.openParen, 2, 3⟩,
        ⟨.closeParen, 3, 4⟩]) := by
      rw [ofText, tokenize_eq_ok_iff.1 hts]
      rfl
    obtain ⟨rs, hrs, -, -, -, -, hdata⟩ := readings_of_text hs
    have hnil : Writes [.openParen, .closeParen] .nil :=
      .list (List.forall_mem_nil _) (.proper (List.forall_mem_nil _))
    obtain ⟨-, hanswers⟩ := hdata [([⟨.symbol "b", 0, 1⟩], .symbol "b"),
      ([⟨.openParen, 2, 3⟩, ⟨.closeParen, 3, 4⟩], .nil)] (by simp [Writes.symbol, hnil]) hts
    exact ⟨_, hs, rs, hrs, hanswers⟩

end SmallScheme
