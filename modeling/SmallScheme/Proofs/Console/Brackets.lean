import SmallScheme.Console.Brackets
import SmallScheme.Proofs.Reader.Cut

/-!
# The brackets that the prompt sees

The prompt counts brackets without cutting the text into tokens, and the two do
not have the same comments: for the lexer, a carriage return ends one as well
as a line feed does. What the prompt counts are the brackets that are tokens and
have no semicolon before them on their line, lines ending at line feeds only
(`visible`). Its verdict on a text is the one that these brackets call for
(`judge_eq_iff_calls`), which is that of all the brackets if no carriage return
stands alone.

The proof goes in two steps. A scan of the characters is a scan of the visible
tokens (`judgeFrom_eq_ofTokens`): between two brackets the count does not change,
and the state of the scan is that of the text before it. A scan of tokens
finds what counting says (`calls_ofTokens`): as long as every bracket closes
one, the depth is the number of brackets opened and not closed.
-/

namespace SmallScheme.Console.Verdict

open Text

/-! ## What brackets call for -/

/-- The number of brackets opened. -/
def opens (ts : List Token) : Nat := ts.countP (·.kind = .openParen)

/-- The number of brackets closed. -/
def closes (ts : List Token) : Nat := ts.countP (·.kind = .closeParen)

/-- After the tokens `before`, the token `t` is a close bracket that closes
    nothing. -/
def Unmatched (before : List Token) (t : Token) : Prop :=
  t.kind = .closeParen ∧ opens before ≤ closes before

/-- Every close bracket closes one that is open. -/
def Matched (ts : List Token) : Prop :=
  ∀ before t after, ts = before ++ t :: after → ¬Unmatched before t

/-- The verdict that the brackets among the tokens call for: the first one that
    closes nothing is to be named; if there is none, it matters whether more
    are opened than closed. -/
def Calls (ts : List Token) : Verdict → Prop
  | unmatched offset => ∃ before t after, ts = before ++ t :: after ∧ Matched before ∧
      Unmatched before t ∧ t.span.start = offset
  | incomplete => Matched ts ∧ closes ts < opens ts
  | complete => Matched ts ∧ opens ts ≤ closes ts

section Counts

variable {before ts : List Token} {t : Token}

theorem opens_append_singleton (before : List Token) (t : Token) :
    opens (before ++ [t]) = opens before + if t.kind = .openParen then 1 else 0 := by
  simp [opens, List.countP_singleton]

theorem closes_append_singleton (before : List Token) (t : Token) :
    closes (before ++ [t]) = closes before + if t.kind = .closeParen then 1 else 0 := by
  simp [closes, List.countP_singleton]

theorem matched_nil : Matched [] := fun _ _ _ h => by simp at h

theorem matched_append_singleton (h : Matched before) (ht : ¬Unmatched before t) :
    Matched (before ++ [t]) := by
  intro before' t' after heq
  rcases List.eq_nil_or_concat after with rfl | ⟨after, last, rfl⟩
  · obtain ⟨rfl, rfl⟩ : before = before' ∧ t = t' := by simpa using heq
    exact ht
  · refine h before' t' after ?_
    rw [List.concat_eq_append, ← List.cons_append, ← List.append_assoc] at heq
    exact (List.append_inj' heq rfl).1

/-- What comes before a close bracket that closes nothing is no longer than what
    is matched. -/
theorem length_le_of_unmatched {before' after : List Token} {t' : Token}
    (h : Matched before) (hbefore : ts = before ++ t :: after) {after' : List Token}
    (hbefore' : ts = before' ++ t' :: after') (ht' : Unmatched before' t') :
    before.length ≤ before'.length := by
  by_contra hlt
  rw [hbefore, List.append_eq_append_iff] at hbefore'
  obtain ⟨as, rfl, -⟩ | ⟨cs, rfl, heq⟩ := hbefore'
  · simp at hlt
  · cases cs with
    | nil => simp at hlt
    | cons c cs =>
      cases heq
      exact h _ _ _ rfl ht'

theorem not_matched_of_calls {offset : Nat} (h : Calls ts (unmatched offset)) : ¬Matched ts := by
  obtain ⟨before, t, after, hts, -, ht, -⟩ := h
  exact fun hmatched => hmatched _ _ _ hts ht

/-- The brackets call for one verdict only. -/
theorem Calls.unique {v w : Verdict} (hv : Calls ts v) (hw : Calls ts w) : v = w := by
  cases v with
  | unmatched offset =>
    cases w with
    | unmatched offset' =>
      obtain ⟨before, t, after, hts, hmatched, ht, rfl⟩ := hv
      obtain ⟨before', t', after', hts', hmatched', ht', rfl⟩ := hw
      have hlength := Nat.le_antisymm (length_le_of_unmatched hmatched hts hts' ht')
        (length_le_of_unmatched hmatched' hts' hts ht)
      obtain ⟨-, heq⟩ := List.append_inj (hts.symm.trans hts') hlength
      cases heq
      rfl
    | incomplete | complete => exact absurd hw.1 (not_matched_of_calls hv)
  | incomplete =>
    cases w with
    | unmatched => exact absurd hv.1 (not_matched_of_calls hw)
    | incomplete => rfl
    | complete => exact absurd hv.2 (Nat.not_lt.2 hw.2)
  | complete =>
    cases w with
    | unmatched => exact absurd hv.1 (not_matched_of_calls hw)
    | incomplete => exact absurd hw.2 (Nat.not_lt.2 hv.2)
    | complete => rfl

end Counts

/-- The verdict on tokens that come after `depth` open brackets. -/
def ofTokens (depth : Nat) : List Token → Verdict
  | [] => if depth = 0 then complete else incomplete
  | t :: ts =>
    if t.kind = .openParen then ofTokens (depth + 1) ts
    else if t.kind = .closeParen then
      if depth = 0 then unmatched t.span.start else ofTokens (depth - 1) ts
    else ofTokens depth ts

/-- A scan of tokens gives the verdict that they call for, if it starts after
    tokens that are matched, at the depth to which they lead. -/
theorem calls_ofTokens {before ts : List Token} {depth : Nat} (h : Matched before)
    (hdepth : opens before = closes before + depth) :
    Calls (before ++ ts) (ofTokens depth ts) := by
  induction ts generalizing before depth with
  | nil =>
    rw [ofTokens, List.append_nil]
    split
    · exact ⟨h, by omega⟩
    · exact ⟨h, by omega⟩
  | cons t ts ih =>
    rw [ofTokens]
    -- A token that closes nothing is named; any other one goes to those before.
    by_cases ht : Unmatched before t
    · have hzero : depth = 0 := by have := ht.2; omega
      rw [ht.1, if_neg (by decide), if_pos rfl, if_pos hzero]
      exact ⟨before, t, ts, rfl, h, ht, rfl⟩
    · have hmatched := matched_append_singleton h ht
      have hopens := opens_append_singleton before t
      have hcloses := closes_append_singleton before t
      rw [List.append_cons]
      split
      · rename_i hopen
        rw [hopen, if_pos rfl] at hopens
        rw [hopen, if_neg (by decide)] at hcloses
        exact ih hmatched (by omega)
      split
      · rename_i hopen hclose
        have hpos : depth ≠ 0 := fun hzero => ht ⟨hclose, by omega⟩
        rw [if_neg hopen] at hopens
        rw [if_pos hclose] at hcloses
        rw [if_neg hpos]
        exact ih hmatched (by omega)
      · rename_i hopen hclose
        rw [if_neg hopen] at hopens
        rw [if_neg hclose] at hcloses
        exact ih hmatched (by omega)

/-! ## What is visible -/

/-- Is there a semicolon on the last line of `cs`? -/
def hasComment (cs : List Char) : Bool := (cs.reverse.takeWhile (· != '\n')).any (· == ';')

/-- The tokens of the text `cs` with no semicolon before them on their line. -/
def visible (cs : List Char) (ts : List Token) : List Token :=
  ts.filter fun t => !hasComment (takeBytes t.span.start cs)

theorem hasComment_append_singleton (cs : List Char) (c : Char) :
    hasComment (cs ++ [c]) = (c != '\n' && (c == ';' || hasComment cs)) := by
  rw [hasComment, List.reverse_append, List.reverse_singleton, List.singleton_append,
    List.takeWhile_cons]
  cases c != '\n' with
  | false => rfl
  | true => rfl

section Scan

variable {pre rest : List Char} {c : Char} {depth : Nat}

/-- The scan of a text that goes on with `cs` after `pre`. -/
abbrev scan (depth : Nat) (pre cs : List Char) : Verdict :=
  judgeFrom (utf8Length pre) depth (hasComment pre) cs

/-- The scan goes past what is no bracket, or in a comment. -/
theorem scan_cons (h : hasComment pre ∨ c ≠ '(' ∧ c ≠ ')') :
    scan depth pre (c :: rest) = scan depth (pre ++ [c]) rest := by
  have hnext : utf8Length (pre ++ [c]) = utf8Length pre + c.utf8Size := by simp
  rw [scan, scan, hnext, hasComment_append_singleton]
  cases hcomment : hasComment pre with
  | true => cases depth <;> simp [judgeFrom]
  | false =>
    obtain ⟨hopen, hclose⟩ := h.resolve_left (by simp [hcomment])
    by_cases hsemicolon : c = ';'
    · subst hsemicolon
      cases depth <;> rfl
    · have hbeq : (c == ';') = false := beq_false_of_ne hsemicolon
      cases depth <;> simp [judgeFrom, hopen, hclose, hbeq]

theorem scan_openParen (h : hasComment pre = false) :
    scan depth pre ('(' :: rest) = scan (depth + 1) (pre ++ ['(']) rest := by
  cases depth <;> simp [scan, judgeFrom, hasComment_append_singleton, h]

theorem scan_closeParen (h : hasComment pre = false) :
    scan depth pre (')' :: rest) =
      if depth = 0 then unmatched (utf8Length pre) else scan (depth - 1) (pre ++ [')']) rest := by
  cases depth <;> simp [scan, judgeFrom, hasComment_append_singleton, h]

theorem scan_append_of_not_paren {cs : List Char} (h : ∀ c ∈ cs, c ≠ '(' ∧ c ≠ ')') :
    scan depth pre (cs ++ rest) = scan depth (pre ++ cs) rest := by
  induction cs generalizing pre with
  | nil => rw [List.nil_append, List.append_nil]
  | cons c cs ih =>
    obtain ⟨hc, hcs⟩ := List.forall_mem_cons.1 h
    rw [List.cons_append, scan_cons (.inr hc), ih hcs, List.append_assoc, List.singleton_append]

theorem scan_append_of_hasComment {cs : List Char} (hpre : hasComment pre)
    (h : ∀ c ∈ cs, c ≠ '\n') : scan depth pre (cs ++ rest) = scan depth (pre ++ cs) rest := by
  induction cs generalizing pre with
  | nil => rw [List.nil_append, List.append_nil]
  | cons c cs ih =>
    obtain ⟨hc, hcs⟩ := List.forall_mem_cons.1 h
    have hpre' : hasComment (pre ++ [c]) := by simp [hasComment_append_singleton, hpre, hc]
    rw [List.cons_append, scan_cons (.inl hpre), ih hpre' hcs, List.append_assoc,
      List.singleton_append]

theorem not_paren_of_isBlank (h : isBlank c) : c ≠ '(' ∧ c ≠ ')' := by
  constructor <;>
  · rintro rfl
    cases h

theorem not_paren_of_isDelimiter (h : isDelimiter c = false) : c ≠ '(' ∧ c ≠ ')' := by
  constructor <;>
  · rintro rfl
    cases h

/-- A token is a bracket just if it is written as one. -/
theorem paren_iff_of_ofLexeme {tail : List Char} {k : TokenKind}
    (h : TokenKind.ofLexeme c tail = .ok k) :
    (k = .openParen ↔ c = '(') ∧ (k = .closeParen ↔ c = ')') := by
  cases takenFor_of_ofLexeme h with
  | openParen | closeParen | quote | dot => simp
  | sign hc => simp [not_paren_of_isDelimiter (isDelimiter_of_isSign hc)]
  | number hc _ => simp [not_paren_of_isDelimiter (isDelimiter_of_number hc)]
  | symbol hc _ => simp [not_paren_of_isDelimiter (isDelimiter_of_isSymbolStart hc)]

/-- A scan of a text is a scan of its visible tokens. -/
theorem scan_eq_ofTokens {cs : List Char} {ls : List Lexeme} {ts : List Token} (h : Cut pre cs ls)
    (hls : ls = ts.map .token) : scan depth pre cs = ofTokens depth (visible (pre ++ cs) ts) := by
  induction h generalizing depth ts with
  | nil pre =>
    obtain rfl := List.map_eq_nil_iff.1 hls.symm
    cases depth <;> rfl
  | blank hblank _ ih =>
    rw [scan_cons (.inr (not_paren_of_isBlank hblank)), ih hls, List.append_assoc,
      List.singleton_append]
  | @comment pre comment rest ls hcomment _ _ ih =>
    have hne : ∀ c ∈ comment, c ≠ '\n' := fun c hc h => by
      have := hcomment c hc
      rw [h] at this
      cases this
    have hpre : hasComment (pre ++ [';']) := by simp [hasComment_append_singleton]
    rw [List.cons_append, scan_cons (.inr (by decide)), scan_append_of_hasComment hpre hne,
      List.append_assoc, List.singleton_append, ih hls, List.append_assoc, List.cons_append]
  | @lexeme pre rest tail c ls hblank hsemicolon htail _ ih =>
    obtain ⟨t, ts, rfl, hchars, hls⟩ := List.map_eq_cons_iff.1 hls.symm
    obtain ⟨hkind, hspan⟩ := ofChars_eq_token hchars.symm
    obtain ⟨hopen, hclose⟩ := paren_iff_of_ofLexeme hkind
    have htail : ∀ d ∈ tail, d ≠ '(' ∧ d ≠ ')' := fun d hd =>
      not_paren_of_isDelimiter (isDelimiter_of_mem_lexemeTail (htail ▸ hd))
    -- After its first character, a lexeme has no brackets.
    have hrest : ∀ depth, scan depth (pre ++ [c]) (tail ++ rest) =
        ofTokens depth (visible (pre ++ (c :: tail ++ rest)) ts) := fun depth => by
      rw [scan_append_of_not_paren htail, ← List.append_cons, ih hls.symm, List.append_assoc]
    have hbefore : takeBytes t.span.start (pre ++ (c :: tail ++ rest)) = pre := by
      rw [hspan, takeBytes_utf8Length]
    rw [visible, List.filter_cons, hbefore, ← visible, List.cons_append]
    cases hcomment : hasComment pre with
    | true => exact (scan_cons (.inl hcomment)).trans (hrest depth)
    | false =>
      rw [if_pos (by decide), ofTokens, if_congr hopen rfl (if_congr hclose rfl rfl)]
      split
      · rename_i heq
        rw [heq, scan_openParen hcomment, ← heq]
        exact hrest (depth + 1)
      split
      · rename_i heq
        rw [heq, scan_closeParen hcomment, hspan, ← heq, hrest (depth - 1)]
        rfl
      · rename_i hne hne'
        exact (scan_cons (.inr ⟨hne, hne'⟩)).trans (hrest depth)

theorem hasComment_append (hpre : hasComment pre = false) {cs : List Char}
    (h : ∀ c ∈ cs, c ≠ ';') : hasComment (pre ++ cs) = false := by
  induction cs generalizing pre with
  | nil => rwa [List.append_nil]
  | cons c cs ih =>
    obtain ⟨hc, hcs⟩ := List.forall_mem_cons.1 h
    rw [List.append_cons]
    exact ih (by simp [hasComment_append_singleton, hpre, hc]) hcs

theorem isBlank_of_endsComment (h : endsComment c) : isBlank c := by
  obtain rfl | rfl : c = '\n' ∨ c = '\r' := by simpa [endsComment] using h
  all_goals rfl

/-- No token has a comment before it on its line if a carriage return is followed
    by a line feed or nothing. -/
theorem hasComment_eq_false_of_mem {cs : List Char} {ls : List Lexeme} {t : Token}
    (h : Cut pre cs ls) (ht : .token t ∈ ls) (hreturn : cs.IsChain fun c d => c = '\r' → d = '\n')
    (hpre : hasComment pre → ∀ c ∈ cs.head?, endsComment c) :
    hasComment (takeBytes t.span.start (pre ++ cs)) = false := by
  induction h with
  | nil => cases ht
  | @blank pre rest c ls hblank _ ih =>
    rw [List.append_cons]
    refine ih ht hreturn.of_cons fun hcomment => ?_
    have hsemicolon : c ≠ ';' := by
      rintro rfl
      cases hblank
    rw [hasComment_append_singleton, Bool.and_eq_true, Bool.or_eq_true] at hcomment
    obtain ⟨hfeed, hcomment⟩ := hcomment
    -- The comment has just ended, and not at a line feed.
    have hend := hpre (hcomment.resolve_left (by simpa using hsemicolon)) c rfl
    have hc : c = '\r' := by
      simp only [endsComment, Bool.or_eq_true, beq_iff_eq] at hend
      exact hend.resolve_left (by simpa using hfeed)
    intro d hd
    rw [(List.isChain_cons.1 hreturn).1 d hd hc]
    rfl
  | @comment pre comment rest ls _ hend _ ih =>
    rw [← List.append_assoc]
    exact ih ht hreturn.right_of_append fun _ => hend
  | @lexeme pre rest tail c ls hblank hsemicolon htail _ ih =>
    have hcomment : hasComment pre = false := by
      by_contra hcomment
      have hend : endsComment c := hpre (by simpa using hcomment) c rfl
      exact Bool.false_ne_true (hblank.symm.trans (isBlank_of_endsComment hend))
    have hne : ∀ d ∈ c :: tail, d ≠ ';' := by
      refine List.forall_mem_cons.2 ⟨hsemicolon, fun d hd => ?_⟩
      rintro rfl
      exact absurd (isDelimiter_of_mem_lexemeTail (htail ▸ hd)) (by decide)
    rcases List.mem_cons.1 ht with hchars | ht
    · rw [(ofChars_eq_token hchars.symm).2, takeBytes_utf8Length, hcomment]
    · rw [← List.append_assoc]
      exact ih ht hreturn.right_of_append fun h => by
        simp [hasComment_append hcomment hne] at h

end Scan

/-- Where a carriage return is followed by a line feed, if by anything, all tokens
    are visible. -/
theorem visible_eq_self {text : String} {ts : List Token} (h : tokenize text = .ok ts)
    (hreturn : text.toList.IsChain fun c d => c = '\r' → d = '\n') :
    visible text.toList ts = ts := by
  have hcut := cut_lexemes text
  rw [tokenize_eq_ok_iff.1 h] at hcut
  refine List.filter_eq_self.2 fun t ht => ?_
  have hnone := hasComment_eq_false_of_mem hcut (List.mem_map_of_mem ht) hreturn fun h => by cases h
  rwa [List.nil_append, ← Bool.not_eq_true'] at hnone

/-- The prompt's verdict on a text that has tokens is the one that its visible
    brackets call for; these are all its brackets if no carriage return stands
    alone. -/
theorem judge_eq_iff_calls :
    ∀ text ts, tokenize text = .ok ts →
      (∀ v, judge text.toList = v ↔ Calls (visible text.toList ts) v) ∧
      ((text.toList.IsChain fun c d => c = '\r' → d = '\n') →
        ∀ v, judge text.toList = v ↔ Calls ts v) := by
  intro text ts h
  have hcut := cut_lexemes text
  have hjudge : judge text.toList = ofTokens 0 (visible text.toList ts) :=
    scan_eq_ofTokens hcut (tokenize_eq_ok_iff.1 h)
  have hcalls : Calls (visible text.toList ts) (judge text.toList) := by
    rw [hjudge]
    exact calls_ofTokens matched_nil rfl
  have hiff : ∀ v, judge text.toList = v ↔ Calls (visible text.toList ts) v := fun v =>
    ⟨fun hv => hv ▸ hcalls, hcalls.unique⟩
  refine ⟨hiff, fun hreturn => ?_⟩
  rwa [visible_eq_self h hreturn] at hiff

/-- In `(;(⏎)`, the last bracket is seen if the line ends with a line feed, and not if
    it ends with a carriage return only. -/
theorem judge_eq_iff_calls_line_end :
    tokenize "(;(\r)" = .ok [⟨.openParen, 0, 1⟩, ⟨.closeParen, 4, 5⟩] ∧
      Calls (visible "(;(\r)".toList [⟨.openParen, 0, 1⟩, ⟨.closeParen, 4, 5⟩]) .incomplete ∧
      tokenize "(;(\r\n)" = .ok [⟨.openParen, 0, 1⟩, ⟨.closeParen, 5, 6⟩] ∧
      Calls [⟨.openParen, 0, 1⟩, ⟨.closeParen, 5, 6⟩] .complete := by
  have htokens : tokenize "(;(\r)" = .ok [⟨.openParen, 0, 1⟩, ⟨.closeParen, 4, 5⟩] := by cbv
  have htokens' : tokenize "(;(\r\n)" = .ok [⟨.openParen, 0, 1⟩, ⟨.closeParen, 5, 6⟩] := by cbv
  refine ⟨htokens, ((judge_eq_iff_calls _ _ htokens).1 _).1 (by decide), htokens', ?_⟩
  exact ((judge_eq_iff_calls _ _ htokens').2 (by decide) _).1 (by decide)

/-- So the verdict is not always the one that the tokens call for. -/
theorem exists_judge_ne_calls :
    ¬ ∀ text ts, tokenize text = .ok ts → ∀ v, judge text.toList = v ↔ Calls ts v := by
  intro h
  have htokens : tokenize "(;(\r)" = .ok [⟨.openParen, 0, 1⟩, ⟨.closeParen, 4, 5⟩] := by cbv
  have hcalls := (h _ _ htokens .incomplete).1 (by decide)
  exact absurd hcalls.2 (by decide)

end SmallScheme.Console.Verdict
