import SmallScheme.Console.Highlight
import SmallScheme.Proofs.Console.Nesting

/-!
# The colours of a line

The colour of a character is told by its place in the line and the pairs of brackets alone
(`colourOf`), without a canvas: what is in a comment is grey, a close bracket that belongs
to no pair is red, and the brackets of a pair touched by the cursor are blue. The
highlighter writes every character in this colour, and nothing else
(`highlight_eq_painted`); with the colours written out, this is `highlight_eq_join`.

An open bracket is written before its colour is known. So while the line is drawn, the
canvas is a picture of what has been read up to its open brackets, which are plain yet
(`Drawn`): between them every character has its final colour, and each of them is still
at the place that was noted when it was written, as colours change behind it only.

The prompt's verdict on a line counts open brackets and stops at the first one that closes
nothing; the highlighter keeps their places and goes on. Both see the same first fault
(`judge_agrees_with_highlight`).
-/

namespace SmallScheme.Console

open Text

/-- No open bracket is closed at byte `offset`. -/
def ClosesNothing (cs : List Char) (offset : Nat) : Prop := ∀ opened, ¬Paired cs opened offset

/-- At byte `offset`, there is a bracket of a pair of which the cursor touches an end. -/
def InTouchedPair (cs : List Char) (cursor offset : Nat) : Prop :=
  ∃ opened closed, Paired cs opened closed ∧ (offset = opened ∨ offset = closed) ∧
    (touches cursor opened ∨ touches cursor closed)

instance (cs : List Char) (offset : Nat) : Decidable (ClosesNothing cs offset) :=
  decidable_of_iff (∀ b ∈ brackets cs, ¬Paired cs b.1 offset)
    ⟨fun h _ hpair => h _ hpair.mem_opened hpair, fun h b _ => h b.1⟩

instance (cs : List Char) (cursor offset : Nat) : Decidable (InTouchedPair cs cursor offset) :=
  decidable_of_iff (∃ b ∈ brackets cs, ∃ d ∈ brackets cs, Paired cs b.1 d.1 ∧
      (offset = b.1 ∨ offset = d.1) ∧ (touches cursor b.1 ∨ touches cursor d.1))
    ⟨fun ⟨b, _, d, _, h⟩ => ⟨b.1, d.1, h⟩, fun ⟨_, _, hpair, h⟩ =>
      ⟨_, hpair.mem_opened, _, hpair.mem_closed, hpair, h⟩⟩

/-- The colour that the character `c` at byte `offset` of a text is to have. -/
def colourOf (cs : List Char) (cursor offset : Nat) (c : Char) : Colour :=
  if Verdict.hasComment (takeBytes offset cs) ∨ c = ';' then .grey
  else if c = ')' ∧ ClosesNothing cs offset then .red
  else if InTouchedPair cs cursor offset then .blue
  else .plain

/-- The part `ds` of a text, which begins at byte `start` of it, in colours. -/
def painted (cs : List Char) (cursor start : Nat) (ds : List Char) : List Char :=
  (withOffsets start ds).flatMap fun (offset, c) => (colourOf cs cursor offset c).paint c

/-- The cursor stands on an end of the pair, or just behind one. -/
theorem inTouchedPair_iff {cs : List Char} {cursor offset : Nat} :
    InTouchedPair cs cursor offset ↔ ∃ opened closed, Paired cs opened closed ∧
      (offset = opened ∨ offset = closed) ∧ (opened = cursor ∨ opened + 1 = cursor ∨
        closed = cursor ∨ closed + 1 = cursor) := by
  simp only [InTouchedPair, touches_iff, or_assoc]

/-! ## The colour of each character -/

section ColourOf

variable {cs pre rest : List Char} {cursor i j offset : Nat} {c : Char}

theorem colourOf_eq (cursor : Nat) (pre rest : List Char) (c : Char) :
    colourOf (pre ++ c :: rest) cursor (utf8Length pre) c =
      if Verdict.hasComment pre ∨ c = ';' then .grey
      else if c = ')' ∧ ClosesNothing (pre ++ c :: rest) (utf8Length pre) then .red
      else if InTouchedPair (pre ++ c :: rest) cursor (utf8Length pre) then .blue
      else .plain := by
  rw [colourOf, takeBytes_utf8Length]

theorem closesNothing_iff (hcomment : Verdict.hasComment pre = false) :
    ClosesNothing (pre ++ ')' :: rest) (utf8Length pre) ↔ stillOpen [] (brackets pre) = [] := by
  simp only [ClosesNothing, paired_closeParen_iff hcomment]
  cases stillOpen [] (brackets pre) <;> simp

theorem of_colourOf_eq_red (h : colourOf cs cursor offset c = .red) :
    ¬(Verdict.hasComment (takeBytes offset cs) ∨ c = ';') ∧ c = ')' ∧ ClosesNothing cs offset := by
  unfold colourOf at h
  split at h
  · cases h
  split at h
  · rename_i hcomment hred
    exact ⟨hcomment, hred⟩
  · split at h <;> cases h

theorem colourOf_eq_red_iff (cursor : Nat) (pre rest : List Char) (c : Char) :
    colourOf (pre ++ c :: rest) cursor (utf8Length pre) c = .red ↔
      Verdict.hasComment pre = false ∧ c = ')' ∧ stillOpen [] (brackets pre) = [] := by
  constructor
  · intro h
    obtain ⟨hcomment, rfl, hred⟩ := of_colourOf_eq_red h
    rw [takeBytes_utf8Length, not_or, Bool.not_eq_true] at hcomment
    exact ⟨hcomment.1, rfl, (closesNothing_iff hcomment.1).1 hred⟩
  · rintro ⟨hcomment, rfl, hopen⟩
    rw [colourOf_eq, if_neg (by simp [hcomment]),
      if_pos ⟨rfl, (closesNothing_iff hcomment).2 hopen⟩]

theorem colourOf_of_not_paren (hc : c ≠ '(' ∧ c ≠ ')') (hsemicolon : c ≠ ';')
    (hcomment : Verdict.hasComment pre = false) :
    colourOf (pre ++ c :: rest) cursor (utf8Length pre) c = .plain := by
  have hmem : (utf8Length pre, c) ∈ withOffsets 0 (pre ++ c :: rest) :=
    mem_withOffsets_iff.2 ⟨pre, rest, rfl, (Nat.zero_add _).symm⟩
  rw [colourOf_eq, if_neg (by simp [hcomment, hsemicolon]), if_neg fun h => hc.2 h.1, if_neg]
  rintro ⟨i, j, hpair, rfl | rfl, -⟩
  · exact hc.1 (char_unique hpair.mem_opened hmem).symm
  · exact hc.2 (char_unique hpair.mem_closed hmem).symm

/-- The colour of the two brackets of a pair. -/
def pairColour (cursor opened closed : Nat) : Colour :=
  if touches cursor opened || touches cursor closed then .blue else .plain

/-- Both ends of a pair are blue if the cursor touches one of them. -/
theorem colourOf_of_paired (cursor : Nat) (h : Paired cs i j)
    (hc : offset = i ∧ c = '(' ∨ offset = j ∧ c = ')') :
    colourOf cs cursor offset c = pairColour cursor i j := by
  have hend : offset = i ∨ offset = j := hc.imp And.left And.left
  have htouched : InTouchedPair cs cursor offset ↔ touches cursor i || touches cursor j := by
    rw [Bool.or_eq_true]
    constructor
    · rintro ⟨i', j', hpair, hend', htouches⟩
      obtain ⟨rfl, rfl⟩ := h.unique hpair hend hend'
      exact htouches
    · exact fun htouches => ⟨i, j, h, hend, htouches⟩
  obtain ⟨rfl, rfl⟩ | ⟨rfl, rfl⟩ := hc
  · obtain ⟨pre, rest, rfl, rfl, -, hcomment⟩ := mem_brackets_iff.1 h.mem_opened
    rw [colourOf_eq, if_neg (by simp [hcomment]), if_neg (by simp), if_congr htouched rfl rfl,
      pairColour]
  · obtain ⟨pre, rest, rfl, rfl, -, hcomment⟩ := mem_brackets_iff.1 h.mem_closed
    rw [colourOf_eq, if_neg (by simp [hcomment]), if_neg fun hred => hred.2 i h,
      if_congr htouched rfl rfl, pairColour]

/-- A bracket that is not closed is plain. -/
theorem colourOf_of_mem_stillOpen (h : i ∈ stillOpen [] (brackets cs)) :
    colourOf cs cursor i '(' = .plain := by
  obtain h' | hmem := mem_of_mem_stillOpen h
  · cases h'
  have htouched : ¬InTouchedPair cs cursor i := by
    rintro ⟨i', j, hpair, rfl | rfl, -⟩
    · exact hpair.notMem_stillOpen h
    · exact absurd (char_unique hmem (List.mem_of_mem_filter hpair.mem_closed)) (by decide)
  obtain ⟨pre, rest, rfl, rfl, -, hcomment⟩ := mem_brackets_iff.1 hmem
  rw [colourOf_eq, if_neg (by simp [hcomment]), if_neg (by simp), if_neg htouched]

end ColourOf

/-! ## Drawing a line -/

/-- When the part `pre` of a text is read and the brackets `opened` are open in it, the
    canvas holds the characters `text`: the open brackets plain, each at the place
    noted for it, and all the rest in its colours. -/
inductive Drawn (cs : List Char) (cursor : Nat) :
    List Char → List OpenBracket → List Char → Prop
  | rest (ds : List Char) : Drawn cs cursor ds [] (painted cs cursor 0 ds)
  | opened {pre text : List Char} {opened : List OpenBracket} (ds : List Char) :
      Drawn cs cursor pre opened text →
      Drawn cs cursor (pre ++ '(' :: ds) (⟨utf8Length pre, utf8Length text⟩ :: opened)
        (text ++ '(' :: painted cs cursor (utf8Length pre + 1) ds)

/-- What the canvas knows when the part `pre` of a text is read. -/
structure Shows (cs : List Char) (cursor : Nat) (pre : List Char) (p : Canvas) : Prop where
  drawn : Drawn cs cursor pre p.opened p.text
  offsets : p.opened.map (·.offset) = stillOpen [] (brackets pre)
  inComment : p.inComment = Verdict.hasComment pre

section Draw

variable {cs pre ds rest text : List Char} {cursor : Nat} {c : Char} {opened : List OpenBracket}
  {p : Canvas}

theorem painted_append (cs : List Char) (cursor start : Nat) (ds es : List Char) :
    painted cs cursor start (ds ++ es) =
      painted cs cursor start ds ++ painted cs cursor (start + utf8Length ds) es := by
  rw [painted, withOffsets_append, List.flatMap_append, painted, painted]

theorem painted_cons (cs : List Char) (cursor start : Nat) (c : Char) (ds : List Char) :
    painted cs cursor start (c :: ds) =
      (colourOf cs cursor start c).paint c ++ painted cs cursor (start + c.utf8Size) ds := by
  rw [painted, withOffsets, List.flatMap_cons, painted]

theorem painted_singleton (cs : List Char) (cursor start : Nat) (c : Char) :
    painted cs cursor start [c] = (colourOf cs cursor start c).paint c := by
  rw [painted_cons, painted, withOffsets, List.flatMap_nil, List.append_nil]

theorem utf8Size_openParen : '('.utf8Size = 1 := rfl

theorem utf8Length_append_openParen (pre ds : List Char) :
    utf8Length (pre ++ '(' :: ds) = utf8Length pre + 1 + utf8Length ds := by
  rw [utf8Length_append, utf8Length_cons, utf8Size_openParen, Nat.add_assoc]

/-- What is written in its colour goes to what has been written after the latest open
    bracket. -/
theorem Drawn.append (h : Drawn cs cursor pre opened text) (es : List Char) :
    Drawn cs cursor (pre ++ es) opened (text ++ painted cs cursor (utf8Length pre) es) := by
  cases h with
  | rest =>
    rw [← Nat.zero_add (utf8Length pre), ← painted_append]
    exact .rest _
  | @opened pre text opened ds h =>
    rw [List.append_assoc, List.cons_append, List.append_assoc, List.cons_append,
      utf8Length_append_openParen, ← painted_append]
    exact h.opened _

/-- When nothing more is to come, the open brackets have the colour they are to have, too. -/
theorem Drawn.text_eq (h : Drawn cs cursor pre opened text)
    (hopened : ∀ b ∈ opened, colourOf cs cursor b.offset '(' = .plain) :
    text = painted cs cursor 0 pre := by
  induction h with
  | rest => rfl
  | @opened pre text opened ds _ ih =>
    obtain ⟨hb, hopened⟩ := List.forall_mem_cons.1 hopened
    rw [painted_append, Nat.zero_add, painted_cons, hb, ih hopened]
    rfl

/-- A close bracket takes the one that it closes, wherever that is, to their colour. -/
theorem step_closeParen (cursor offset : Nat) (text ds : List Char) (b : OpenBracket)
    (outer : List OpenBracket) (hplace : b.place = utf8Length text) :
    Canvas.step cursor ⟨text ++ '(' :: ds, b :: outer, false⟩ offset ')' =
      ⟨text ++ (pairColour cursor b.offset offset).paint '(' ++
        (ds ++ (pairColour cursor b.offset offset).paint ')'), outer, false⟩ := by
  change (if touches cursor b.offset || touches cursor offset then
      ((Canvas.mk (text ++ '(' :: ds) outer false).write .blue ')').paintOver b.place .blue '('
    else (Canvas.mk (text ++ '(' :: ds) outer false).write .plain ')') = _
  rw [pairColour]
  split
  · -- The one byte at the place noted is that of the open bracket.
    have htext : text ++ '(' :: ds ++ Colour.blue.paint ')' =
        text ++ '(' :: (ds ++ Colour.blue.paint ')') := by
      rw [List.append_assoc, List.cons_append]
    have hdrop : dropBytes (utf8Length text + 1) (text ++ '(' :: (ds ++ Colour.blue.paint ')')) =
        ds ++ Colour.blue.paint ')' := by
      simpa [utf8Size_openParen] using
        dropBytes_utf8Length (text ++ ['(']) (ds ++ Colour.blue.paint ')')
    simp only [Canvas.paintOver, Canvas.write, hplace, htext, hdrop, takeBytes_utf8Length]
  · rw [Canvas.write, List.append_assoc, List.append_assoc]
    rfl

/-- A character written in its colour at once. -/
theorem Drawn.write (h : Drawn cs cursor pre p.opened p.text) {colour : Colour}
    (hcolour : colourOf cs cursor (utf8Length pre) c = colour) :
    Drawn cs cursor (pre ++ [c]) p.opened (p.write colour c).text := by
  rw [Canvas.write, ← hcolour, ← painted_singleton]
  exact h.append [c]

/-- A pair, both brackets in their colour, goes to what has been written before it. -/
theorem Drawn.pair {colour : Colour} (h : Drawn cs cursor pre opened text)
    (hopened : colourOf cs cursor (utf8Length pre) '(' = colour)
    (hclosed : colourOf cs cursor (utf8Length (pre ++ '(' :: ds)) ')' = colour) :
    Drawn cs cursor (pre ++ '(' :: ds ++ [')']) opened
      (text ++ colour.paint '(' ++ (painted cs cursor (utf8Length pre + 1) ds ++
        colour.paint ')')) := by
  have happend := h.append ('(' :: (ds ++ [')']))
  rw [painted_cons, hopened, painted_append, painted_singleton, utf8Size_openParen,
    ← utf8Length_append_openParen, hclosed, ← List.append_assoc] at happend
  rwa [List.append_assoc, List.cons_append]

/-- The latest open bracket is closed: both brackets of the pair now have their colour. -/
theorem Shows.close {b : OpenBracket} {outer : List OpenBracket}
    (h : Shows (pre ++ ')' :: rest) cursor pre p) (hb : p.opened = b :: outer)
    (hcomment : Verdict.hasComment pre = false) :
    Shows (pre ++ ')' :: rest) cursor (pre ++ [')']) (p.step cursor (utf8Length pre) ')') := by
  obtain ⟨hdrawn, hopen, hnone⟩ := h
  obtain ⟨text, opened, inComment⟩ := p
  obtain rfl : opened = b :: outer := hb
  obtain rfl : inComment = false := hnone.trans hcomment
  have hpair : Paired (pre ++ ')' :: rest) b.offset (utf8Length pre) := by
    rw [paired_closeParen_iff hcomment, ← hopen, List.map_cons, List.head?_cons]
  have hopened := colourOf_of_paired cursor hpair (.inl ⟨rfl, rfl⟩)
  have hclosed := colourOf_of_paired cursor hpair (.inr ⟨rfl, rfl⟩)
  have hstill : outer.map (·.offset) = stillOpen [] (brackets (pre ++ [')'])) := by
    rw [brackets_append_paren (.inr rfl) hcomment, stillOpen_append, ← hopen]
    rfl
  have hnext : Verdict.hasComment (pre ++ [')']) = false := by
    simp [Verdict.hasComment_append_singleton, hcomment]
  generalize pre ++ ')' :: rest = cs at *
  obtain - | @⟨pre, text, _, ds, hdrawn⟩ := hdrawn
  have hstep := step_closeParen cursor (utf8Length (pre ++ '(' :: ds)) text
    (painted cs cursor (utf8Length pre + 1) ds) ⟨utf8Length pre, utf8Length text⟩ outer rfl
  refine ⟨?_, ?_, ?_⟩
  · exact hstep ▸ hdrawn.pair hopened hclosed
  · exact hstep ▸ hstill
  · exact hstep ▸ hnext.symm

theorem Shows.comment (h : Shows (pre ++ c :: rest) cursor pre p)
    (hgrey : Verdict.hasComment pre ∨ c = ';') :
    Shows (pre ++ c :: rest) cursor (pre ++ [c]) (p.step cursor (utf8Length pre) c) := by
  have hparen : Verdict.hasComment pre ∨ c ≠ '(' ∧ c ≠ ')' := by
    refine hgrey.imp_right ?_
    rintro rfl
    decide
  rw [Canvas.step, if_pos (by simpa [h.inComment] using hgrey)]
  refine ⟨h.drawn.write (by rw [colourOf_eq, if_pos hgrey]), ?_, ?_⟩
  · rw [brackets_append_of_not hparen]
    exact h.offsets
  · rw [Verdict.hasComment_append_singleton]
    obtain hgrey | hgrey := hgrey <;> simp [hgrey]

/-- A character that is written in its colour at once, and leaves the brackets as they are. -/
theorem Shows.write {colour : Colour} (h : Shows cs cursor pre p)
    (hcolour : colourOf cs cursor (utf8Length pre) c = colour)
    (hopen : stillOpen [] (brackets (pre ++ [c])) = stillOpen [] (brackets pre))
    (hcomment : Verdict.hasComment (pre ++ [c]) = Verdict.hasComment pre) :
    Shows cs cursor (pre ++ [c]) (p.write colour c) :=
  ⟨h.drawn.write hcolour, h.offsets.trans hopen.symm, h.inComment.trans hcomment.symm⟩

/-- Every character is drawn as it is to be. -/
theorem Shows.step (h : Shows (pre ++ c :: rest) cursor pre p) :
    Shows (pre ++ c :: rest) cursor (pre ++ [c]) (p.step cursor (utf8Length pre) c) := by
  by_cases hgrey : Verdict.hasComment pre ∨ c = ';'
  · exact h.comment hgrey
  obtain ⟨hcomment, hsemicolon⟩ := not_or.1 hgrey
  rw [Bool.not_eq_true] at hcomment
  have hnext : Verdict.hasComment (pre ++ [c]) = false := by
    simp [Verdict.hasComment_append_singleton, hcomment, hsemicolon]
  by_cases hclose : c = ')'
  · subst hclose
    rcases hopened : p.opened with - | ⟨b, outer⟩
    · have hopen : stillOpen [] (brackets pre) = [] := by
        rw [← h.offsets, hopened, List.map_nil]
      have hstep : p.step cursor (utf8Length pre) ')' = p.write .red ')' := by
        simp [Canvas.step, h.inComment, hcomment, hopened]
      rw [hstep]
      have hred := (colourOf_eq_red_iff cursor pre rest ')').2 ⟨hcomment, rfl, hopen⟩
      refine h.write hred ?_ (hnext.trans hcomment.symm)
      rw [brackets_append_paren (.inr rfl) hcomment, stillOpen_append, hopen]
      rfl
    · exact h.close hopened hcomment
  rw [Canvas.step, if_neg (by simp [h.inComment, hcomment, hsemicolon])]
  split
  · rename_i hopen
    obtain rfl := beq_iff_eq.1 hopen
    refine ⟨h.drawn.opened [], ?_, h.inComment.trans (hcomment.trans hnext.symm)⟩
    rw [brackets_append_paren (.inl rfl) hcomment, stillOpen_append, ← h.offsets]
    rfl
  · rename_i hopen
    have hparen : c ≠ '(' ∧ c ≠ ')' := ⟨by simpa using hopen, hclose⟩
    rw [if_neg (by simpa using hclose)]
    refine h.write (colourOf_of_not_paren hparen hsemicolon hcomment) ?_ (hnext.trans hcomment.symm)
    rw [brackets_append_of_not (.inr hparen)]

/-- And so is what is left of a line. -/
theorem Shows.draw (h : Shows cs cursor pre p) (hcs : cs = pre ++ rest) :
    Shows cs cursor cs (p.draw cursor (withOffsets (utf8Length pre) rest)) := by
  induction rest generalizing pre p with
  | nil =>
    rw [hcs, List.append_nil] at h ⊢
    exact h
  | cons c rest ih =>
    have hlength : utf8Length pre + c.utf8Size = utf8Length (pre ++ [c]) := by simp
    rw [withOffsets, Canvas.draw, hlength]
    refine ih ?_ (hcs.trans (List.append_cons ..))
    subst hcs
    exact h.step

/-- In the end, every bracket that is open still is one that is not closed. -/
theorem text_draw (cs : List Char) (cursor : Nat) :
    (Canvas.blank.draw cursor (withOffsets 0 cs)).text = painted cs cursor 0 cs := by
  have hblank : Shows cs cursor [] .blank := ⟨.rest [], rfl, rfl⟩
  obtain ⟨hdrawn, hoffsets, -⟩ := hblank.draw rfl
  refine hdrawn.text_eq fun b hb => colourOf_of_mem_stillOpen ?_
  rw [← hoffsets]
  exact List.mem_map_of_mem hb

end Draw

/-- The output of the highlighter is every character of the line in the colour that it is to
    have: grey in a comment, from a semicolon through the next line feed; red if it is a
    close bracket that closes nothing; blue if it is a bracket of a pair of which the
    cursor touches an end; and plain otherwise. -/
theorem highlight_eq_painted (line : String) (cursor : Nat) :
    highlight line cursor = String.ofList (painted line.toList cursor 0 line.toList) := by
  rw [highlight, text_draw]

theorem ofList_flatMap {α : Type} (f : α → List Char) (as : List α) :
    String.ofList (as.flatMap f) = String.join (as.map fun a => String.ofList (f a)) := by
  rw [← String.toList_inj, String.toList_join, String.toList_ofList, List.flatMap_map]
  simp only [String.toList_ofList]

open scoped Classical in
/-- The output of the highlighter with the colours written out, as a terminal is sent them. -/
theorem highlight_eq_join (line : String) (cursor : Nat) :
    highlight line cursor = String.join ((withOffsets 0 line.toList).map fun (offset, c) =>
      if Verdict.hasComment (takeBytes offset line.toList) ∨ c = ';' then
        "\x1b[90m" ++ c.toString ++ "\x1b[0m"
      else if c = ')' ∧ ∀ opened, ¬Paired line.toList opened offset then
        "\x1b[31m" ++ c.toString ++ "\x1b[0m"
      else if ∃ opened closed, Paired line.toList opened closed ∧
          (offset = opened ∨ offset = closed) ∧ (opened = cursor ∨ opened + 1 = cursor ∨
            closed = cursor ∨ closed + 1 = cursor) then
        "\x1b[1;34m" ++ c.toString ++ "\x1b[0m"
      else c.toString) := by
  rw [highlight, text_draw, painted, ofList_flatMap]
  congr 2
  funext ⟨offset, c⟩
  simp only [colourOf, Colour.ofList_paint, inTouchedPair_iff, ClosesNothing]
  split_ifs <;> rfl

example : highlight "(é) ;)\n)" 4 =
    "\x1b[1;34m(\x1b[0mé\x1b[1;34m)\x1b[0m " ++
      "\x1b[90m;\x1b[0m\x1b[90m)\x1b[0m\x1b[90m\n\x1b[0m" ++ "\x1b[31m)\x1b[0m" := by
  decide

/-! ## The prompt and the highlighter -/

/-- The byte of the first red character among those that are left of a text from byte
    `start` on. -/
def firstRed (cs : List Char) (cursor start : Nat) (ds : List Char) : Option Nat :=
  ((withOffsets start ds).find? fun (offset, c) => colourOf cs cursor offset c = .red).map (·.1)

section FirstRed

variable {cs pre rest : List Char} {cursor : Nat} {c : Char}

theorem firstRed_cons (cs : List Char) (cursor start : Nat) (c : Char) (ds : List Char) :
    firstRed cs cursor start (c :: ds) =
      if colourOf cs cursor start c = .red then some start
      else firstRed cs cursor (start + c.utf8Size) ds := by
  rw [firstRed, withOffsets, List.find?_cons]
  by_cases h : colourOf cs cursor start c = .red
  · simp [h]
  · simp [h, firstRed]

/-- A character that is not red is passed, and the depth is the number of brackets open. -/
theorem scan_of_not_red (h : ¬(Verdict.hasComment pre = false ∧ c = ')' ∧
      stillOpen [] (brackets pre) = [])) :
    Verdict.scan (stillOpen [] (brackets pre)).length pre (c :: rest) =
      Verdict.scan (stillOpen [] (brackets (pre ++ [c]))).length (pre ++ [c]) rest := by
  by_cases hparen : Verdict.hasComment pre ∨ c ≠ '(' ∧ c ≠ ')'
  · rw [Verdict.scan_cons hparen, brackets_append_of_not hparen]
  obtain ⟨hcomment, hc⟩ := not_or.1 hparen
  rw [Bool.not_eq_true] at hcomment
  by_cases hopen : c = '('
  · subst hopen
    rw [Verdict.scan_openParen hcomment, brackets_append_paren (.inl rfl) hcomment,
      stillOpen_append]
    rfl
  obtain rfl : c = ')' := by
    by_contra hclose
    exact hc ⟨hopen, hclose⟩
  have hne : stillOpen [] (brackets pre) ≠ [] := fun hnil => h ⟨hcomment, rfl, hnil⟩
  rw [Verdict.scan_closeParen hcomment, if_neg (by simpa using hne),
    brackets_append_paren (.inr rfl) hcomment, stillOpen_append, stillOpen_closeParen, stillOpen,
    List.length_tail]

/-- The scan for a verdict, which knows how many brackets are open, stops at the first
    red character. -/
theorem scan_eq_unmatched_of_firstRed (cursor : Nat) (hcs : cs = pre ++ rest) :
    (∀ i, firstRed cs cursor (utf8Length pre) rest = some i →
      Verdict.scan (stillOpen [] (brackets pre)).length pre rest = .unmatched i) ∧
    (firstRed cs cursor (utf8Length pre) rest = none →
      Verdict.scan (stillOpen [] (brackets pre)).length pre rest = .complete ∨
      Verdict.scan (stillOpen [] (brackets pre)).length pre rest = .incomplete) := by
  induction rest generalizing pre with
  | nil =>
    refine ⟨fun i h => ?_, fun _ => ?_⟩
    · cases h
    · rw [Verdict.scan, Verdict.judgeFrom]
      exact ite_eq_or_eq ..
  | cons c rest ih =>
    have hlength : utf8Length pre + c.utf8Size = utf8Length (pre ++ [c]) := by simp
    have hred := colourOf_eq_red_iff cursor pre rest c
    rw [← hcs] at hred
    rw [firstRed_cons, hlength]
    split
    · rename_i h
      obtain ⟨hcomment, rfl, hopen⟩ := hred.1 h
      refine ⟨fun i h => ?_, fun h => by cases h⟩
      obtain rfl := Option.some.inj h
      rw [Verdict.scan_closeParen hcomment, hopen]
      rfl
    · rename_i h
      rw [scan_of_not_red fun h' => h (hred.2 h')]
      exact ih (hcs.trans (List.append_cons ..))

end FirstRed

/-- The prompt finds a close bracket that closes nothing just where the first red character
    stands in what the highlighter writes, wherever the cursor is; all that is red are close
    brackets, and nothing is if the input is complete or goes on. -/
theorem judge_agrees_with_highlight (line : String) (cursor : Nat) :
    highlight line cursor = String.ofList (painted line.toList cursor 0 line.toList) ∧
    (∀ offset c, colourOf line.toList cursor offset c = .red → c = ')') ∧
    (∀ i, Verdict.judge line.toList = .unmatched i ↔
      firstRed line.toList cursor 0 line.toList = some i) ∧
    (Verdict.judge line.toList = .complete ∨ Verdict.judge line.toList = .incomplete →
      ∀ b ∈ withOffsets 0 line.toList, colourOf line.toList cursor b.1 b.2 ≠ .red) := by
  have hscan : Verdict.judge line.toList =
      Verdict.scan (stillOpen [] (brackets [])).length [] line.toList := rfl
  have hline : line.toList = [] ++ line.toList := rfl
  obtain ⟨hsome, hnone⟩ := scan_eq_unmatched_of_firstRed cursor hline
  rw [← hscan] at hsome hnone
  refine ⟨by rw [highlight, text_draw], fun _ _ hred => (of_colourOf_eq_red hred).2.1,
    fun i => ⟨fun h => ?_, hsome i⟩, fun h b hb hred => ?_⟩
  · rcases hfirst : firstRed line.toList cursor 0 line.toList with - | j
    · obtain h' | h' := hnone hfirst <;> cases h.symm.trans h'
    · cases h.symm.trans (hsome j hfirst)
      rfl
  · rcases hfirst : firstRed line.toList cursor 0 line.toList with - | j
    · rw [firstRed, Option.map_eq_none_iff, List.find?_eq_none] at hfirst
      exact hfirst b hb (by simpa using hred)
    · rw [hsome j hfirst] at h
      obtain h | h := h <;> cases h

/-- In the first of these texts, the second line closes one bracket too many; in the second
    one, the close bracket is in a comment. -/
theorem judge_agrees_with_highlight_comment :
    (Verdict.judge "(;)\n))".toList = .unmatched 5 ∧
      firstRed "(;)\n))".toList 1 0 "(;)\n))".toList = some 5) ∧
    Verdict.judge "(;)".toList = .incomplete ∧
      ∀ b ∈ withOffsets 0 "(;)".toList, colourOf "(;)".toList 1 b.1 b.2 ≠ .red := by
  have hunmatched : Verdict.judge "(;)\n))".toList = .unmatched 5 := by decide
  have hincomplete : Verdict.judge "(;)".toList = .incomplete := by decide
  obtain ⟨-, -, hred, -⟩ := judge_agrees_with_highlight "(;)\n))" 1
  obtain ⟨-, -, -, hnone⟩ := judge_agrees_with_highlight "(;)" 1
  exact ⟨⟨hunmatched, (hred 5).1 hunmatched⟩, hincomplete, hnone (.inr hincomplete)⟩

end SmallScheme.Console
