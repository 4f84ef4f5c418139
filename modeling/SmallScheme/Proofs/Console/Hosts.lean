import SmallScheme.CommandLine
import SmallScheme.Console.Session
import SmallScheme.Proofs.Sharing

/-!
# Two hosts for one interpreter

The prompt puts entries together from the lines of its input, and goes on after an
error; the command line is given its expressions one by one, and stops at the first.
Otherwise both do what an interpreter on its own does with a list of texts
(`hosts_agree`).

At the prompt this takes texts that are entries (`Console.IsEntry`): complete with the
last line and not before. Then the lines of a text are collected up to its end and no
further, whatever text comes next (`Console.inputEventsFrom_splitLines`).
-/

namespace SmallScheme

open Text

/-- Texts, each with a line feed after it. -/
def inLines (texts : List String) : String := String.join (texts.map (· ++ "\n"))

/-- The answers to texts, in order. -/
abbrev Answers := List (Except RunError String)

namespace Answers

/-- The results among the answers. -/
def outputs (answers : Answers) : List String := answers.filterMap Except.toOption

/-- The lines about the errors among the answers. -/
def errorLines (answers : Answers) : List String :=
  answers.filterMap fun
    | .ok _ => none
    | .error e => some e.line

variable {answers : Answers} {output : String} {e : RunError}

@[simp] theorem outputs_ok_cons : outputs (.ok output :: answers) = output :: outputs answers := rfl

@[simp] theorem outputs_error_cons : outputs (.error e :: answers) = outputs answers := rfl

@[simp] theorem errorLines_ok_cons : errorLines (.ok output :: answers) = errorLines answers := rfl

@[simp] theorem errorLines_error_cons :
    errorLines (.error e :: answers) = e.line :: errorLines answers := rfl

end Answers

theorem inLines_cons (text : String) (texts : List String) :
    inLines (text :: texts) = text ++ "\n" ++ inLines texts := by
  rw [inLines, List.map_cons, String.join_cons, inLines]

/-! ## The prompt -/

namespace Console

/-- The prompt has to read all lines of the text before it takes it for an entry. -/
structure IsWhole (text : List Char) : Prop where
  /-- Nothing is taken for a part of a terminator. -/
  no_return : '\r' ∉ text
  /-- Nothing is taken away. -/
  no_backspace : '\x08' ∉ text
  /-- All brackets are closed at the end. -/
  judge_eq : Verdict.judge text = .complete
  /-- At the end of each line before, there are some to be closed. -/
  judge_before : ∀ before after, text = before ++ '\n' :: after →
    Verdict.judge before = .incomplete

/-- The prompt answers the text. -/
structure IsEntry (text : List Char) : Prop extends IsWhole text where
  /-- It is not empty. -/
  trim_ne : trimChars text ≠ []
  /-- It does not end the session. -/
  not_exit : isExit (trimChars text) = false

/-- What is said of the lines before can be looked up, one character after another. -/
theorem isWhole_iff {text : List Char} : IsWhole text ↔
    '\r' ∉ text ∧ '\x08' ∉ text ∧ Verdict.judge text = .complete ∧
      ∀ k < text.length, text[k]? = some '\n' → Verdict.judge (text.take k) = .incomplete := by
  constructor
  · refine fun h => ⟨h.no_return, h.no_backspace, h.judge_eq, fun k hk hlf => ?_⟩
    refine h.judge_before _ (text.drop (k + 1)) ?_
    rw [List.getElem?_eq_getElem hk] at hlf
    rw [← Option.some.inj hlf, ← List.drop_eq_getElem_cons hk, List.take_append_drop]
  · rintro ⟨hreturn, hbackspace, hjudge, hbefore⟩
    refine ⟨hreturn, hbackspace, hjudge, ?_⟩
    rintro before after rfl
    simpa using hbefore before.length (by simp) (by simp)

instance : DecidablePred IsWhole := fun _ => decidable_of_iff' _ isWhole_iff

instance : DecidablePred IsEntry := fun text =>
  decidable_of_iff (IsWhole text ∧ trimChars text ≠ [] ∧ isExit (trimChars text) = false)
    ⟨fun ⟨hwhole, hne, hexit⟩ => ⟨hwhole, hne, hexit⟩,
      fun h => ⟨h.toIsWhole, h.trim_ne, h.not_exit⟩⟩

theorem splitLines_append {line rest : List Char} (hline : '\n' ∉ line) :
    splitLines (line ++ '\n' :: rest) = (line ++ ['\n']) :: splitLines rest := by
  induction line with
  | nil => rfl
  | cons c line ih =>
    obtain ⟨hc, hline⟩ := not_or.1 (mt List.mem_cons.2 hline)
    rw [List.cons_append, splitLines, if_neg (by simpa using Ne.symm hc), ih hline]
    rfl

theorem splitTerminator_append {front : List Char} (hreturn : '\r' ∉ front) :
    splitTerminator (front ++ ['\n']) = (front, ['\n']) := by
  rw [splitTerminator, List.reverse_append]
  split
  · rename_i back heq
    have hlast : front.reverse = '\r' :: back := List.tail_eq_of_cons_eq heq
    exact absurd (List.mem_reverse.1 (hlast ▸ List.mem_cons_self)) hreturn
  · rename_i back _ heq
    obtain rfl : front.reverse = back := List.tail_eq_of_cons_eq heq
    rw [List.reverse_reverse]
  · rename_i hno
    exact absurd rfl (hno front.reverse)

/-- What becomes of a line that has neither a carriage return nor a backspace. -/
theorem inputEventsFrom_line {buffer line : List Char} {lines : List (List Char)}
    (hreturn : '\r' ∉ buffer ++ line) (hbackspace : '\x08' ∉ buffer ++ line) :
    inputEventsFrom buffer ((line ++ ['\n']) :: lines) =
      match Verdict.judge (buffer ++ line) with
      | .complete => .entry (buffer ++ line) :: inputEventsFrom [] lines
      | .incomplete => inputEventsFrom (buffer ++ line ++ ['\n']) lines
      | .unmatched offset => .unmatched offset :: inputEventsFrom (buffer ++ line) lines := by
  rw [inputEventsFrom, ← List.append_assoc, splitTerminator_append hreturn]
  cases hverdict : Verdict.judge (buffer ++ line) <;>
    simp only [applyBackspaces?_of_not_mem hbackspace, hverdict]

/-- With a part of the text in the buffer, the lines of the rest make the entry. -/
theorem inputEventsFrom_splitLines (buffer : List Char) {text rest : List Char}
    (h : IsWhole (buffer ++ text)) :
    inputEventsFrom buffer (splitLines (text ++ '\n' :: rest)) =
      .entry (buffer ++ text) :: inputEventsFrom [] (splitLines rest) := by
  induction hn : text.length using Nat.strong_induction_on generalizing buffer text with
  | h n ih =>
  subst hn
  by_cases hlf : '\n' ∈ text
  · obtain ⟨line, more, rfl, hline⟩ := List.eq_append_cons_of_mem hlf
    have hsplit : buffer ++ (line ++ '\n' :: more) = (buffer ++ line) ++ '\n' :: more := by
      rw [List.append_assoc]
    have hwhole : buffer ++ (line ++ '\n' :: more) = (buffer ++ line ++ ['\n']) ++ more := by simp
    have hsub : buffer ++ line ⊆ buffer ++ (line ++ '\n' :: more) := by
      rw [hsplit]
      exact List.subset_append_left ..
    rw [List.append_assoc, List.cons_append, splitLines_append hline,
      inputEventsFrom_line (mt (hsub ·) h.no_return) (mt (hsub ·) h.no_backspace),
      h.judge_before _ _ hsplit]
    -- The line goes into the buffer, and the text has one line less.
    rw [hwhole] at h ⊢
    exact ih more.length (by simp; omega) _ h rfl
  · rw [splitLines_append hlf, inputEventsFrom_line h.no_return h.no_backspace, h.judge_eq]

/-- Whole texts, each in lines of its own, are the entries. -/
theorem inputEvents_inLines {texts : List String} (h : ∀ text ∈ texts, IsWhole text.toList) :
    inputEvents (inLines texts) = texts.map fun text => .entry text.toList := by
  rw [inputEvents]
  induction texts with
  | nil => rfl
  | cons text texts ih =>
    obtain ⟨htext, htexts⟩ := List.forall_mem_cons.1 h
    have htoList : (inLines (text :: texts)).toList =
        text.toList ++ '\n' :: (inLines texts).toList := by
      rw [inLines_cons, String.toList_append, String.toList_append, List.append_assoc]
      rfl
    rw [htoList, List.map_cons, ← ih htexts]
    exact inputEventsFrom_splitLines [] htext

/-- Entries are answered like the texts of a session, results on one output and
    errors on the other. -/
theorem answer_entries (i : Interpreter) (n : Nat) {s : Store} {texts : List String}
    (h : ∀ text ∈ texts, IsEntry text.toList) :
    answer i n s (texts.map fun text => .entry text.toList) =
      (i.runAll n (texts.map trim) s).map fun (answers, _) =>
        ⟨inLines (Answers.outputs answers) ++ farewell,
          inLines (Answers.errorLines answers), 0⟩ := by
  induction texts generalizing s with
  | nil => rfl
  | cons text texts ih =>
    obtain ⟨htext, htexts⟩ := List.forall_mem_cons.1 h
    have hne : (trimChars text.toList).isEmpty = false := by simpa using htext.trim_ne
    rw [List.map_cons, List.map_cons, answer, hne, htext.not_exit, Interpreter.runAll, trim]
    simp only [Bool.false_eq_true, if_false]
    cases (i.run n (String.ofList (trimChars text.toList))).run s with
    | value output t =>
      simp only [ih htexts, Option.map_map]
      congr 1
      funext p
      simp [Transcript.after, inLines_cons, String.append_assoc]
    | error e t =>
      simp only [ih htexts, Option.map_map]
      congr 1
      funext p
      simp [Transcript.after, inLines_cons, String.append_assoc]
    | unfinished => rfl

end Console

/-! ## The command line -/

section CommandLine

variable {i : Interpreter} {n : Nat} {s t t' : Store} {text : String}
  {before after texts outputs : List String}

/-- If a list of texts has results only, so has the first text, and so have the others. -/
theorem Interpreter.runAll_cons_eq_ok : i.runAll n (text :: texts) s = some (outputs.map .ok, t) ↔
    ∃ output rest s', outputs = output :: rest ∧ (i.run n text).run s = .value output s' ∧
      i.runAll n texts s' = some (rest.map .ok, t) := by
  rw [runAll]
  constructor
  · intro h
    cases ho : (i.run n text).run s with
    | value output s' =>
      simp only [ho, Option.map_eq_some_iff, Prod.exists, Prod.mk.injEq] at h
      obtain ⟨answers, _, hrest, hcons, rfl⟩ := h
      obtain ⟨output', rest, rfl, houtput, rfl⟩ := List.map_eq_cons_iff.1 hcons.symm
      cases houtput
      exact ⟨output, rest, s', rfl, rfl, hrest⟩
    | error e s' =>
      simp only [ho, Option.map_eq_some_iff, Prod.exists, Prod.mk.injEq] at h
      obtain ⟨_, _, _, hcons, _⟩ := h
      obtain ⟨_, _, _, houtput, _⟩ := List.map_eq_cons_iff.1 hcons.symm
      cases houtput
    | unfinished => simp [ho] at h
  · rintro ⟨output, rest, s', rfl, ho, hrest⟩
    simp [ho, hrest]

namespace CommandLine

/-- If all texts have results, these are written. -/
theorem answer_of_runAll (h : i.runAll n texts s = some (outputs.map .ok, t)) :
    answer i n s texts = some ⟨inLines outputs, "", 0⟩ := by
  induction texts generalizing s outputs with
  | nil =>
    obtain ⟨rfl, -⟩ : outputs = [] ∧ s = t := by simpa [Interpreter.runAll] using h
    rfl
  | cons text texts ih =>
    obtain ⟨output, rest, s', rfl, ho, hrest⟩ := Interpreter.runAll_cons_eq_ok.1 h
    rw [answer, ho]
    simp only [ih hrest, Option.map_some, inLines_cons]

/-- If a text fails, and those before it have results, these are written, and the error;
    the texts after it do not matter. -/
theorem answer_of_error {e : RunError} (h : i.runAll n before s = some (outputs.map .ok, t))
    (hfail : (i.run n text).run t = .error e t') :
    answer i n s (before ++ text :: after) = some ⟨inLines outputs, e.line ++ "\n", 1⟩ := by
  induction before generalizing s outputs with
  | nil =>
    obtain ⟨rfl, rfl⟩ : outputs = [] ∧ s = t := by
      simpa [Interpreter.runAll, eq_comm] using h
    rw [List.nil_append, answer, hfail]
    rfl
  | cons text' before ih =>
    obtain ⟨output, rest, s', rfl, ho, hrest⟩ := Interpreter.runAll_cons_eq_ok.1 h
    rw [List.cons_append, answer, ho]
    simp only [ih hrest, Option.map_some, inLines_cons]

/-- There are no other answers. -/
theorem answer_eq_some {r : Result} (h : answer i n s texts = some r) :
    (∃ outputs t, i.runAll n texts s = some (outputs.map .ok, t) ∧ r = ⟨inLines outputs, "", 0⟩) ∨
    ∃ before text after outputs t e t', texts = before ++ text :: after ∧
      i.runAll n before s = some (outputs.map .ok, t) ∧ (i.run n text).run t = .error e t' ∧
      r = ⟨inLines outputs, e.line ++ "\n", 1⟩ := by
  induction texts generalizing s r with
  | nil =>
    obtain rfl := Option.some.inj h
    exact .inl ⟨[], s, rfl, rfl⟩
  | cons text texts ih =>
    rw [answer] at h
    cases ho : (i.run n text).run s with
    | value output s' =>
      simp only [ho, Option.map_eq_some_iff] at h
      obtain ⟨r', hr', rfl⟩ := h
      obtain ⟨outputs, t, hall, rfl⟩ | ⟨before, text', after, outputs, t, e, t', rfl, hbefore,
        hfail, rfl⟩ := ih hr'
      · refine .inl ⟨output :: outputs, t, ?_, by rw [inLines_cons]⟩
        exact Interpreter.runAll_cons_eq_ok.2 ⟨_, _, _, rfl, ho, hall⟩
      · refine .inr ⟨text :: before, text', after, output :: outputs, t, e, t', rfl, ?_, hfail,
          by rw [inLines_cons]⟩
        exact Interpreter.runAll_cons_eq_ok.2 ⟨_, _, _, rfl, ho, hbefore⟩
    | error e s' =>
      rw [ho] at h
      obtain rfl := Option.some.inj h
      exact .inr ⟨[], text, texts, [], s, e, s', rfl, rfl, ho, rfl⟩
    | unfinished => simp [ho] at h

/-- If all texts have answers, those before the first error are written, and that error. -/
theorem answer_of_answers {answers : Answers} (h : i.runAll n texts s = some (answers, t)) :
    answer i n s texts = some ⟨inLines (Answers.outputs (answers.takeWhile Except.isOk)),
      inLines (answers.errorLines.take 1), if answers.errorLines.isEmpty then 0 else 1⟩ := by
  induction texts generalizing s answers with
  | nil =>
    obtain ⟨rfl, -⟩ := Prod.mk.inj (Option.some.inj h)
    rfl
  | cons text texts ih =>
    rw [Interpreter.runAll] at h
    rw [answer]
    cases ho : (i.run n text).run s with
    | value output s' =>
      simp only [ho, Option.map_eq_some_iff, Prod.exists, Prod.mk.injEq] at h
      obtain ⟨rest, _, hrest, rfl, rfl⟩ := h
      rw [List.takeWhile_cons_of_pos rfl]
      simp only [ih hrest, Option.map_some, Answers.outputs_ok_cons, Answers.errorLines_ok_cons,
        inLines_cons]
      rfl
    | error e s' =>
      simp only [ho, Option.map_eq_some_iff, Prod.exists, Prod.mk.injEq] at h
      obtain ⟨rest, _, hrest, rfl, rfl⟩ := h
      rw [List.takeWhile_cons_of_neg (by simp [Except.isOk, Except.toBool])]
      simp [Answers.outputs, inLines]
    | unfinished => simp [ho] at h

end CommandLine

end CommandLine

/-- The prompt, given entries in lines, and the command line, given them without the
    white space round them, both do what an interpreter on its own does with them. The
    prompt writes all results and all errors, in order. The command line writes the results
    up to the first error, and this one error, whatever comes after it; it succeeds if there
    is none. -/
theorem hosts_agree {texts : List String} (h : ∀ text ∈ texts, Console.IsEntry text.toList)
    (n : Nat) :
    let run : List String → Store → Option (Answers × Store) := Interpreter.alone.runAll n
    let start := Interpreter.aloneStore
    let entries := texts.map trim
    (∀ hasHistory, Console.session n hasHistory (inLines texts) =
      (run entries start).map fun (answers, _) =>
        { stdout := (if hasHistory then Console.banner else Console.banner ++ Console.noHistory) ++
            inLines answers.outputs ++ Console.farewell
          stderr := inLines answers.errorLines
          code := 0 }) ∧
    (texts ≠ [] → ∀ answers s, run entries start = some (answers, s) →
      CommandLine.run n entries = some
        { stdout := inLines (Answers.outputs (answers.takeWhile Except.isOk))
          stderr := inLines (answers.errorLines.take 1)
          code := if answers.errorLines.isEmpty then 0 else 1 }) ∧
    (texts ≠ [] → ∀ r, CommandLine.run n entries = some r ↔
      (∃ outputs s, run entries start = some (outputs.map .ok, s) ∧
        r = ⟨inLines outputs, "", 0⟩) ∨
      ∃ before text after outputs s e s', entries = before ++ text :: after ∧
        run before start = some (outputs.map .ok, s) ∧
        (Interpreter.alone.run n text).run s = .error e s' ∧
        r = ⟨inLines outputs, e.line ++ "\n", 1⟩) := by
  have hrun : texts ≠ [] → CommandLine.run n (texts.map trim) =
      CommandLine.answer Interpreter.alone n Interpreter.aloneStore (texts.map trim) := by
    intro hne
    rw [CommandLine.run, if_neg (by simpa using hne)]
    rfl
  refine ⟨fun hasHistory => ?_, fun hne answers s hs => ?_, fun hne r => ⟨fun hr => ?_, ?_⟩⟩
  · have hentries := Console.answer_entries Interpreter.alone n (s := Interpreter.aloneStore) h
    change (Console.answer Interpreter.alone n Interpreter.aloneStore _).map _ = _
    rw [Console.inputEvents_inLines fun text htext => (h text htext).toIsWhole, hentries,
      Option.map_map]
    congr 1
    funext p
    simp [Console.Transcript.after, String.append_assoc]
  · rw [hrun hne]
    exact CommandLine.answer_of_answers hs
  · exact CommandLine.answer_eq_some (hrun hne ▸ hr)
  · rw [hrun hne]
    rintro (⟨outputs, s, hall, rfl⟩ | ⟨before, text, after, outputs, s, e, s', hsplit, hbefore,
      hfail, rfl⟩)
    · exact CommandLine.answer_of_runAll hall
    · rw [hsplit]
      exact CommandLine.answer_of_error hbefore hfail

open Interpreter in
/-- An entry on two lines, one that fails, and one that needs what the first one did. -/
theorem hosts_agree_failing :
    let texts := ["(define x\n  7)", " (car x) ", "(+ x 1)"]
    (∀ text ∈ texts, Console.IsEntry text.toList) ∧
    Console.session 3 true (inLines texts) =
      some ⟨"Schemelet REPL v0.1.0\nType 'exit' or press Ctrl-D to quit.\n" ++
          "x\n8\n" ++ "\nExiting.\n",
        "Runtime error: Evaluation Error: car expects a pair, got integer\n", 0⟩ ∧
    CommandLine.run 3 (texts.map trim) =
      some ⟨"x\n", "Runtime error: Evaluation Error: car expects a pair, got integer\n", 1⟩ := by
  intro texts
  have hentries : ∀ text ∈ texts, Console.IsEntry text.toList := by decide
  have htrim : texts.map trim = ["(define x\n  7)", "(car x)", "(+ x 1)"] := by decide
  have hread₁ : readExpression "(define x\n  7)" = .ok (.pair (.symbol "define")
      (.pair (.symbol "x") (.pair (.integer ⟨7, by decide⟩) .nil))) := by cbv
  have hread₂ : readExpression "(car x)" =
      .ok (.pair (.symbol "car") (.pair (.symbol "x") .nil)) := by cbv
  have hread₃ : readExpression "(+ x 1)" = .ok (.pair (.symbol "+")
      (.pair (.symbol "x") (.pair (.integer .one) .nil))) := by cbv
  have hanswers : ∃ answers s, alone.runAll 3 (texts.map trim) aloneStore = some (answers, s) ∧
      Answers.outputs answers = ["x", "8"] ∧ answers.takeWhile Except.isOk = [.ok "x"] ∧
      Answers.errorLines answers =
        ["Runtime error: Evaluation Error: car expects a pair, got integer"] := by
    rw [htrim]
    simp only [runAll, run_eq, hread₁, hread₂, hread₃]
    exact ⟨_, _, rfl, rfl, rfl, rfl⟩
  obtain ⟨answers, s, hs, houtputs, hfirst, herrors⟩ := hanswers
  obtain ⟨hsession, hargs, _⟩ := hosts_agree hentries 3
  refine ⟨hentries, ?_⟩
  rw [hsession, hargs (by decide) answers s hs, hs, hfirst, herrors]
  simp only [Option.map_some, houtputs, herrors]
  decide

end SmallScheme
