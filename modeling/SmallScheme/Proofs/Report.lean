import SmallScheme.Proofs.Reader.Spans
import SmallScheme.Proofs.Session
import SmallScheme.Report

/-!
# Where reports point

A report is made from the bytes that an error covers, and read as characters.
It points at the error if the characters before the error take one byte each,
and the error does not reach too far beyond the end of the text when its bytes
are counted as characters; it says what is wrong there if the error does not
reach beyond the end at all (`report_of_run`). For a text in which all
characters take one byte, both always hold.

Positions tell offsets apart (`Position.ofOffset_injOn`), so a mark that is off by some
characters is not at the right place by chance.
-/

namespace SmallScheme

open Text

namespace Text

theorem length_le_utf8Length (cs : List Char) : cs.length ≤ utf8Length cs := by
  induction cs with
  | nil => exact Nat.le_refl 0
  | cons c cs ih =>
    have := c.utf8Size_pos
    simp only [List.length_cons, utf8Length_cons]
    omega

/-- Bytes and characters are as many just if every character takes one byte. -/
theorem utf8Length_eq_length_iff {cs : List Char} :
    utf8Length cs = cs.length ↔ ∀ c ∈ cs, c.utf8Size = 1 := by
  induction cs with
  | nil => simp
  | cons c cs ih =>
    have hc := c.utf8Size_pos
    have hcs := length_le_utf8Length cs
    simp only [List.length_cons, utf8Length_cons, List.forall_mem_cons, ← ih]
    omega

namespace Position

/-- An earlier line, or an earlier column in the same line. -/
def Before (p q : Position) : Prop := p.line < q.line ∨ p.line = q.line ∧ p.column < q.column

theorem Before.trans {p q r : Position} (h : p.Before q) (h' : q.Before r) : p.Before r := by
  unfold Before at *
  omega

theorem Before.ne {p q : Position} (h : p.Before q) : p ≠ q := by
  rintro rfl
  unfold Before at h
  omega

/-- Every character leads to a later place. -/
theorem before_advance {p : Position} {cs : List Char} {n : Nat} (hpos : 0 < n)
    (hn : n ≤ cs.length) : p.Before (p.advance cs n) := by
  induction n generalizing p cs with
  | zero => cases hpos
  | succ n ih =>
    cases cs with
    | nil => cases hn
    | cons c cs =>
      have hnext :
          p.Before (if breaksLine c cs then ⟨p.line + 1, 1⟩ else ⟨p.line, p.column + 1⟩) := by
        split
        · exact .inl (Nat.lt_succ_self _)
        · exact .inr ⟨rfl, Nat.lt_succ_self _⟩
      rw [advance]
      cases n with
      | zero => rwa [advance]
      | succ n => exact hnext.trans (ih (Nat.succ_pos n) (Nat.le_of_succ_le_succ hn))

theorem advance_add (p : Position) (cs : List Char) (m n : Nat) :
    p.advance cs (m + n) = (p.advance cs m).advance (cs.drop m) n := by
  induction m generalizing p cs with
  | zero => rw [Nat.zero_add, List.drop_zero, advance]
  | succ m ih =>
    cases cs with
    | nil => cases n <;> simp [advance]
    | cons c cs => rw [Nat.succ_add, advance, ih, advance, List.drop_succ_cons]

theorem ofOffset_before {cs : List Char} {m n : Nat} (hmn : m < n) (hn : n ≤ cs.length) :
    (ofOffset cs m).Before (ofOffset cs n) := by
  obtain ⟨k, rfl⟩ := Nat.exists_eq_add_of_lt hmn
  rw [ofOffset, ofOffset, Nat.add_assoc, advance_add]
  exact before_advance (Nat.succ_pos k) (by rw [List.length_drop]; omega)

/-- The places of a text are all different. -/
theorem ofOffset_injOn {cs : List Char} {m n : Nat} (hm : m ≤ cs.length) (hn : n ≤ cs.length)
    (h : ofOffset cs m = ofOffset cs n) : m = n := by
  rcases Nat.lt_trichotomy m n with hlt | heq | hgt
  · exact absurd h (ofOffset_before hlt hn).ne
  · exact heq
  · exact absurd h.symm (ofOffset_before hgt hm).ne

end Position

end Text

namespace Mark

variable {m : Mark} {cs : List Char}

/-- A mark is laid where it belongs if the characters before it take one byte each,
    and it fits. -/
theorem place_eq_iff {before after : List Char} {c : Char} (hcs : cs = before ++ c :: after)
    (hstart : utf8Length before = m.span.start) (hlt : m.span.start < m.span.stop) :
    m.place cs = some (.ofOffset cs before.length) ↔
      (∀ d ∈ before, d.utf8Size = 1) ∧ m.span.stop ≤ cs.length + 1 := by
  have hlength : before.length ≤ cs.length := by simp [hcs]
  have hfits : m.fits cs.length ↔ m.span.stop ≤ cs.length + 1 := by
    simp only [fits, Bool.and_eq_true, Bool.or_eq_true, decide_eq_true_eq]
    omega
  rw [place, ← utf8Length_eq_length_iff, hstart]
  by_cases hstop : m.span.stop ≤ cs.length + 1
  · rw [if_pos (hfits.2 hstop), Option.some_inj]
    constructor
    · exact fun h => ⟨Position.ofOffset_injOn (by omega) hlength h, hstop⟩
    · rintro ⟨heq, -⟩
      rw [heq]
  · rw [if_neg (hfits.not.2 hstop)]
    exact iff_of_false nofun fun h => hstop h.2

/-- A mark says what there is to say if it ends in the text. -/
theorem shown_iff (hle : m.span.start ≤ m.span.stop) :
    (m.place cs).isSome ∧ m.shown cs = some m.label ↔ m.span.stop ≤ cs.length := by
  have hfits : m.span.stop ≤ cs.length → m.fits cs.length := fun h => by
    simp only [fits, Bool.and_eq_true, Bool.or_eq_true, decide_eq_true_eq]
    omega
  constructor
  · rintro ⟨-, hshown⟩
    by_contra hstop
    simp [shown, hstop] at hshown
  · intro hstop
    simp [place, shown, hfits hstop, hstop]

end Mark

/-! ## Errors and their marks -/

theorem within_of_readExpression {text : String} {e : ReadError}
    (h : readExpression text = .error (.reading e)) : e.Within text.toList := by
  unfold readExpression at h
  split at h
  · rename_i hof
    cases h
    exact fun span hspan => by
      cases hspan
      exact TokenStream.within_of_ofText_eq_error hof
  rename_i stream hof
  split at h
  · cases h
  split at h
  · rename_i hread
    cases h
    exact TokenStream.within_readOnly (TokenStream.within_ofText hof) hread
  · cases h
  · cases h

/-- Only reading says where in the text an error is. -/
def RunError.span? : RunError → Option Span
  | reading e => e.span?
  | evaluation _ => none
  | nothingEntered => none

/-- An error met while a text is answered is placed in it, if anywhere. -/
theorem Interpreter.within_of_run {i : Interpreter} {n : Nat} {text : String} {s t : Store}
    {e : RunError} (h : (i.run n text).run s = .error e t) {span : Span}
    (hspan : e.span? = some span) : span.Within text.toList := by
  rw [run_eq] at h
  split at h
  · rename_i hread
    cases h
    cases e with
    | reading e => exact within_of_readExpression hread span hspan
    | evaluation | nothingEntered => cases hspan
  · -- Whatever fails here is an error of evaluation.
    rw [StoreM.run_mapError] at h
    split at h <;> cases h
    cases hspan

namespace RunError

variable {e : RunError} {text : String}

/-- What an error is placed at is what is marked. -/
theorem headline_of_span? (text : String) {span : Span} (h : e.span? = some span) :
    ∃ mark, (e.headline text).2 = some mark ∧ mark.span = span := by
  cases e with
  | reading e =>
    cases e with
    | unexpectedEnd => cases h
    | lexical | unexpectedToken | misplacedDot | quoteMark =>
      cases h
      exact ⟨_, rfl, rfl⟩
  | evaluation | nothingEntered => cases h

/-- What is placed nowhere is marked at the end of the text, or all over it. -/
theorem headline_of_span?_eq_none (text : String) (h : e.span? = none) (he : e ≠ .nothingEntered) :
    ∃ mark, (e.headline text).2 = some mark ∧
      (mark.span = endSpan text ∨ mark.span = wholeSpan text) := by
  cases e with
  | reading e =>
    cases e with
    | unexpectedEnd => exact ⟨_, rfl, .inl rfl⟩
    | lexical | unexpectedToken | misplacedDot | quoteMark => cases h
  | evaluation => exact ⟨_, rfl, .inr rfl⟩
  | nothingEntered => exact absurd rfl he

theorem report_eq {mark : Mark} (h : (e.headline text).2 = some mark) :
    (e.report text).place = mark.place text.toList ∧
      (e.report text).label = mark.shown text.toList := by
  simp [report, h]

/-- The report on an error points at it: it names the place of the character at
    which the error begins, if there is such a place, and says what there is to
    say. -/
structure PointedAt (e : RunError) (text : String) : Prop where
  /-- Where it is. -/
  place : ∀ span, e.span? = some span → ∃ before c after,
    text.toList = before ++ c :: after ∧ utf8Length before = span.start ∧
      (e.report text).place = some (.ofOffset text.toList before.length)
  /-- What to say there. -/
  label : e ≠ .nothingEntered → ∃ mark, (e.headline text).2 = some mark ∧
    (e.report text).place.isSome ∧ (e.report text).label = some mark.label

end RunError

section Run

variable {i : Interpreter} {n : Nat} {text : String} {s t : Store} {e : RunError}

/-- An error at a span begins with a character of the text, and the report names the
    place of that character if the span is where it seems to be and fits. -/
theorem Interpreter.exists_place_iff_of_run (h : (i.run n text).run s = .error e t) {span : Span}
    (hspan : e.span? = some span) : ∃ before c after,
      text.toList = before ++ c :: after ∧ utf8Length before = span.start ∧
        ((e.report text).place = some (.ofOffset text.toList before.length) ↔
          (∀ d ∈ before, d.utf8Size = 1) ∧ span.stop ≤ text.toList.length + 1) := by
  have hwithin := Interpreter.within_of_run h hspan
  obtain ⟨before, c, after, hcs, hstart⟩ := hwithin.starts
  obtain ⟨mark, hmark, rfl⟩ := RunError.headline_of_span? text hspan
  rw [(RunError.report_eq hmark).1]
  exact ⟨before, c, after, hcs, hstart, Mark.place_eq_iff hcs hstart hwithin.start_lt_stop⟩

/-- What is marked for an error is a span of the text, the whole text, or its end. -/
theorem Interpreter.exists_mark_of_run (h : (i.run n text).run s = .error e t)
    (he : e ≠ .nothingEntered) : ∃ mark, (e.headline text).2 = some mark ∧
      mark.span.start ≤ mark.span.stop ∧ mark.span.stop ≤ utf8Length text.toList := by
  cases hspan : e.span? with
  | some span =>
    have hwithin := Interpreter.within_of_run h hspan
    obtain ⟨mark, hmark, rfl⟩ := RunError.headline_of_span? text hspan
    exact ⟨mark, hmark, Nat.le_of_lt hwithin.start_lt_stop, hwithin.stop_le⟩
  | none =>
    obtain ⟨mark, hmark, heq | heq⟩ := RunError.headline_of_span?_eq_none text hspan he
    · exact ⟨mark, hmark, by simp [heq, endSpan]⟩
    · exact ⟨mark, hmark, by simp [heq, wholeSpan]⟩

theorem Interpreter.exists_label_iff_of_run (h : (i.run n text).run s = .error e t)
    (he : e ≠ .nothingEntered) : ∃ mark, (e.headline text).2 = some mark ∧
      mark.span.stop ≤ utf8Length text.toList ∧
        ((e.report text).place.isSome ∧ (e.report text).label = some mark.label ↔
          mark.span.stop ≤ text.toList.length) := by
  obtain ⟨mark, hmark, hle, hstop⟩ := Interpreter.exists_mark_of_run h he
  obtain ⟨hplace, hlabel⟩ := RunError.report_eq hmark
  rw [hplace, hlabel]
  exact ⟨mark, hmark, hstop, Mark.shown_iff hle⟩

/-- Where bytes are characters, reports point at the error. -/
theorem Interpreter.pointedAt_of_run (h : (i.run n text).run s = .error e t)
    (hone : ∀ c ∈ text.toList, c.utf8Size = 1) : e.PointedAt text where
  place span hspan := by
    obtain ⟨before, c, after, hcs, hstart, hiff⟩ := Interpreter.exists_place_iff_of_run h hspan
    have hstop := (Interpreter.within_of_run h hspan).stop_le
    rw [utf8Length_eq_length_iff.2 hone] at hstop
    have hbefore : ∀ d ∈ before, d.utf8Size = 1 := fun d hd =>
      hone d (hcs ▸ List.mem_append_left _ hd)
    exact ⟨before, c, after, hcs, hstart, hiff.2 ⟨hbefore, Nat.le_succ_of_le hstop⟩⟩
  label he := by
    obtain ⟨mark, hmark, hstop, hiff⟩ := Interpreter.exists_label_iff_of_run h he
    rw [utf8Length_eq_length_iff.2 hone] at hstop
    exact ⟨mark, hmark, hiff.2 hstop⟩

end Run

/-- Of an error at the bytes of a span, the place is right if all characters before it
    take one byte and the number of its last byte is not beyond the end of the
    characters. Place and label are there if all the bytes marked are within the number
    of characters. In a text in which every character takes one byte, this is
    always so. -/
theorem report_of_run :
    ∀ (i : Interpreter) (n : Nat) (text : String) (s : Store) (e : RunError) (t : Store),
      (i.run n text).run s = .error e t →
        (∀ span, e.span? = some span → ∃ before c after,
          text.toList = before ++ c :: after ∧ utf8Length before = span.start ∧
            ((e.report text).place = some (.ofOffset text.toList before.length) ↔
              (∀ d ∈ before, d.utf8Size = 1) ∧ span.stop ≤ text.toList.length + 1)) ∧
        (e ≠ .nothingEntered → ∃ mark, (e.headline text).2 = some mark ∧
          mark.span.stop ≤ utf8Length text.toList ∧
            ((e.report text).place.isSome ∧ (e.report text).label = some mark.label ↔
              mark.span.stop ≤ text.toList.length)) ∧
        ((∀ c ∈ text.toList, c.utf8Size = 1) → e.PointedAt text) := by
  intro i n text s e t h
  exact ⟨fun _ => Interpreter.exists_place_iff_of_run h,
    Interpreter.exists_label_iff_of_run h, Interpreter.pointedAt_of_run h⟩

/-- In `1 ; a` and a second line `)`, the report points at the bracket. -/
theorem report_of_run_second_line :
    ((Interpreter.new .empty).1.run 0 "1 ; a\r\n)").run .empty =
        .error (.reading (.unexpectedToken ⟨.closeParen, 7, 8⟩ .endOfInput)) .empty ∧
      (RunError.reading (.unexpectedToken ⟨.closeParen, 7, 8⟩ .endOfInput)).PointedAt
        "1 ; a\r\n)" := by
  have hread : readExpression "1 ; a\r\n)" =
    .error (.reading (.unexpectedToken ⟨.closeParen, 7, 8⟩ .endOfInput)) := by cbv
  have hrun : ((Interpreter.new .empty).1.run 0 "1 ; a\r\n)").run .empty =
      .error (.reading (.unexpectedToken ⟨.closeParen, 7, 8⟩ .endOfInput)) .empty := by
    rw [Interpreter.run_eq, hread]
  exact ⟨hrun, (report_of_run _ _ _ _ _ _ hrun).2.2 (utf8Length_eq_length_iff.1 rfl)⟩

/-- With a letter of two bytes in the place of the `a`, it does not. -/
theorem exists_not_pointedAt :
    ¬ ∀ (i : Interpreter) (n : Nat) (text : String) (s : Store) (e : RunError) (t : Store),
      (i.run n text).run s = .error e t → e.PointedAt text := by
  intro h
  have hread : readExpression "1 ; é\r\n)" =
    .error (.reading (.unexpectedToken ⟨.closeParen, 8, 9⟩ .endOfInput)) := by cbv
  have hpointed := h (Interpreter.new .empty).1 0 "1 ; é\r\n)" .empty _ _
    (by rw [Interpreter.run_eq, hread])
  obtain ⟨mark, -, -, hlabel⟩ := hpointed.label fun hnone => by cases hnone
  have hnone : (RunError.reading (.unexpectedToken ⟨.closeParen, 8, 9⟩ .endOfInput)).report
      "1 ; é\r\n)" = ⟨"Unexpected token: )", some ⟨2, 2⟩, none⟩ := rfl
  rw [hnone] at hlabel
  cases hlabel

end SmallScheme
