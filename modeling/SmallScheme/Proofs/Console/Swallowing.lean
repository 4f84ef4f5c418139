import Mathlib
import SmallScheme.Console.Session

/-!
# What an unmatched bracket does to a session

A session goes on line by line. Between two lines it is a `Prompt`, with the entry so
far, the lines that are still to be read, the store of its interpreter and what has been
written; the next line makes it another one (`Prompt.next?`), and the transcript of the
session is the same from each of them (`Prompt.ending_of_reaches`).

A bracket that closes nothing can not be mended by anything after it, and stays in the
buffer (`Prompt.Swallowing`): each further line is judged together with it, and judged
the same. A terminator is taken off the whole buffer, so a carriage return of an earlier
line may go with the line feed of a later one; but the bracket is neither. Only a
backspace could take it away. So no entry is complete any more, and the session ends
with the input (`unmatched_swallows`).
-/

namespace SmallScheme

/-! ## Backspaces -/

namespace Text

/-- A backspace goes on with no grapheme, -/
theorem ClusterState.accepts_backspace (state : ClusterState) : state.accepts '\x08' = false := by
  have hsort : GraphemeBreak.ofChar '\x08' = .control := by decide
  have hconjunct : ConjunctBreak.ofChar .control '\x08' = .none := by decide
  have hmeet : meet state.last .control = false := by cases state.last <;> rfl
  simp [accepts, hsort, hmeet, hconjunct]

/-- and nothing goes on with a backspace. -/
theorem ClusterState.accepts_after_backspace (c : Char) :
    (initial.after '\x08').accepts c = false := by
  have hstate : initial.after '\x08' = ⟨.control, false, .none, .none⟩ := by decide
  have hmeet (sort : GraphemeBreak) : meet .control sort = false := by cases sort <;> rfl
  simp [hstate, accepts, hmeet]

/-- So it is a grapheme of its own. -/
theorem eq_backspace_of_mem_graphemesFrom {cluster g : List Char} {state : ClusterState}
    {cs : List Char}
    (hcluster : '\x08' ∈ cluster → cluster = ['\x08'] ∧ state = .after .initial '\x08')
    (hg : g ∈ graphemesFrom cluster state cs) (hmem : '\x08' ∈ g) : g = ['\x08'] := by
  induction cs generalizing cluster state with
  | nil =>
    obtain rfl := List.mem_singleton.1 hg
    obtain ⟨rfl, -⟩ := hcluster (List.mem_reverse.1 hmem)
    rfl
  | cons c cs ih =>
    rw [graphemesFrom] at hg
    split at hg
    · rename_i haccepts
      refine ih (fun hc => ?_) hg
      rcases List.mem_cons.1 hc with rfl | hc
      · rw [ClusterState.accepts_backspace] at haccepts
        cases haccepts
      · rw [(hcluster hc).2, ClusterState.accepts_after_backspace] at haccepts
        cases haccepts
    rcases List.mem_cons.1 hg with rfl | hg
    · obtain ⟨rfl, -⟩ := hcluster (List.mem_reverse.1 hmem)
      rfl
    · refine ih (fun hc => ?_) hg
      obtain rfl := List.mem_singleton.1 hc
      exact ⟨rfl, rfl⟩

theorem eq_backspace_of_mem_graphemes {cs g : List Char} (hg : g ∈ graphemes cs)
    (hmem : '\x08' ∈ g) : g = ['\x08'] := by
  cases cs with
  | nil => cases hg
  | cons c cs =>
    refine eq_backspace_of_mem_graphemesFrom (fun hc => ?_) hg hmem
    obtain rfl := List.mem_singleton.1 hc
    exact ⟨rfl, rfl⟩

end Text

namespace Console

open Text

theorem dropBytes?_suffix {n : Nat} {cs ds : List Char} (h : dropBytes? n cs = some ds) :
    ds <:+ cs := by
  induction cs generalizing n with
  | nil =>
    rw [dropBytes?] at h
    split at h
    · cases h
      exact List.suffix_refl []
    · cases h
  | cons c cs ih =>
    rw [dropBytes?] at h
    split at h
    · cases h
      exact List.suffix_refl _
    split at h
    · exact (ih h).trans (List.suffix_cons c cs)
    · cases h

theorem not_mem_of_foldlM_add? {typed typed' : Typed} {gs : List (List Char)}
    (hkept : '\x08' ∉ typed.kept) (hgs : ∀ g ∈ gs, '\x08' ∈ g → g = ['\x08'])
    (h : gs.foldlM Typed.add? typed = some typed') : '\x08' ∉ typed'.kept := by
  induction gs generalizing typed with
  | nil =>
    cases h
    exact hkept
  | cons g gs ih =>
    obtain ⟨hg, hgs⟩ := List.forall_mem_cons.1 hgs
    rw [List.foldlM_cons] at h
    obtain ⟨next, hnext, h⟩ := Option.bind_eq_some_iff.1 h
    refine ih (fun hmem => ?_) hgs h
    rw [Typed.add?] at hnext
    split at hnext
    · split at hnext
      · cases hnext
        exact hkept hmem
      · obtain ⟨kept, hdrop, rfl⟩ := Option.map_eq_some_iff.1 hnext
        exact hkept ((dropBytes?_suffix hdrop).mem hmem)
    · rename_i hne
      cases hnext
      rcases List.mem_append.1 hmem with hmem | hmem
      · exact hne (beq_iff_eq.2 (hg (List.mem_reverse.1 hmem)))
      · exact hkept hmem

/-- No backspace is left when they have done their work. -/
theorem not_mem_of_applyBackspaces? {buffer text : List Char}
    (h : applyBackspaces? buffer = some text) : '\x08' ∉ text := by
  obtain ⟨typed, htyped, rfl⟩ := Option.map_eq_some_iff.1 h
  rw [List.mem_reverse]
  exact not_mem_of_foldlM_add? (List.not_mem_nil) (fun g => eq_backspace_of_mem_graphemes) htyped

/-! ## Verdicts that do not change -/

namespace Verdict

variable {offset depth k : Nat} {inComment : Bool} {cs ds : List Char}

/-- Nothing mends a bracket that closes nothing. -/
theorem judgeFrom_append (h : judgeFrom offset depth inComment cs = unmatched k) (ds : List Char) :
    judgeFrom offset depth inComment (cs ++ ds) = unmatched k := by
  induction cs generalizing offset depth inComment with
  | nil =>
    rw [judgeFrom] at h
    split at h <;> cases h
  | cons c cs ih => cases depth <;> grind [judgeFrom]

/-- Without a close bracket, there is none that closes nothing. -/
theorem judgeFrom_ne_unmatched (h : ')' ∉ ds) :
    judgeFrom offset depth inComment ds ≠ unmatched k := by
  induction ds generalizing offset depth inComment with
  | nil =>
    rw [judgeFrom]
    split <;> exact Verdict.noConfusion
  | cons c ds ih => cases depth <;> grind [judgeFrom]

/-- The verdict goes back to what was there before the last close bracket. -/
theorem judgeFrom_of_append (h : judgeFrom offset depth inComment (cs ++ ds) = unmatched k)
    (hds : ')' ∉ ds) : judgeFrom offset depth inComment cs = unmatched k := by
  induction cs generalizing offset depth inComment with
  | nil => exact absurd h (judgeFrom_ne_unmatched hds)
  | cons c cs ih => cases depth <;> grind [judgeFrom]

end Verdict

/-- A buffer is what is left of it and its terminator. -/
theorem splitTerminator_append_eq {buffer front terminator : List Char}
    (h : splitTerminator buffer = (front, terminator)) :
    front ++ terminator = buffer ∧ ')' ∉ terminator := by
  rw [splitTerminator] at h
  split at h
  · rename_i rest heq
    cases h
    refine ⟨?_, by decide⟩
    rw [← List.reverse_reverse buffer, heq]
    simp
  · rename_i rest _ heq
    cases h
    refine ⟨?_, by decide⟩
    rw [← List.reverse_reverse buffer, heq]
    simp
  · cases h
    exact ⟨List.append_nil _, List.not_mem_nil⟩

/-! ## Sessions line by line -/

/-- A session between two lines of its input. -/
structure Prompt where
  /-- The interpreter that answers. -/
  interpreter : Interpreter
  /-- The store in which it does so. -/
  store : Store
  /-- The entry so far. -/
  buffer : List Char
  /-- The lines that are still to be read. -/
  lines : List (List Char)
  /-- What has been written to the standard output. -/
  stdout : String
  /-- What has been written to the error output. -/
  stderr : String

namespace Prompt

/-- Before the first line. -/
def start (hasHistory : Bool) (input : String) : Prompt where
  interpreter := (Interpreter.new .empty).1
  store := (Interpreter.new .empty).2
  buffer := []
  lines := splitLines input.toList
  stdout := if hasHistory then banner else banner ++ noHistory
  stderr := ""

/-- The next line makes `text` of the buffer, without the terminator, and that is judged. -/
inductive Judges (p : Prompt) (text terminator : List Char) (lines : List (List Char)) : Prop
  | mk (line front : List Char) (hlines : p.lines = line :: lines)
    (hsplit : splitTerminator (p.buffer ++ line) = (front, terminator))
    (htext : applyBackspaces? front = some text)

/-- The prompt when it has answered an entry, unless this ends the session or has no
    answer within `n` levels. -/
def answer? (n : Nat) (text : List Char) (p : Prompt) : Option Prompt :=
  let entry := trimChars text
  if entry.isEmpty then some p
  else if isExit entry then none
  else
    match (p.interpreter.run n (String.ofList entry)).run p.store with
    | .value output s => some { p with store := s, stdout := p.stdout ++ (output ++ "\n") }
    | .error e s => some { p with store := s, stderr := p.stderr ++ (e.line ++ "\n") }
    | .unfinished => none

/-- The prompt after the next line, if there is one and the session goes on after it. -/
def next? (n : Nat) (p : Prompt) : Option Prompt :=
  match p.lines with
  | [] => none
  | line :: lines =>
    let (front, terminator) := splitTerminator (p.buffer ++ line)
    match applyBackspaces? front with
    | none => none
    | some text =>
      match Verdict.judge text with
      | .complete => answer? n text { p with buffer := [], lines }
      | .incomplete => some { p with buffer := text ++ terminator, lines }
      | .unmatched offset =>
        some { p with buffer := text, lines, stderr := p.stderr ++ unmatchedMessage offset }

/-- The session comes from one prompt to another. -/
def Reaches (n : Nat) : Prompt → Prompt → Prop :=
  Relation.ReflTransGen fun p q => p.next? n = some q

/-- The transcript of the session that has come to the prompt. -/
def ending (n : Nat) (p : Prompt) : Option Transcript :=
  (answer p.interpreter n p.store (inputEventsFrom p.buffer p.lines)).map
    (Transcript.after p.stdout p.stderr)

end Prompt

theorem Transcript.map_after_after (stdout stderr stdout' stderr' : String)
    (t : Option Transcript) : (t.map (after stdout' stderr')).map (after stdout stderr) =
      t.map (after (stdout ++ stdout') (stderr ++ stderr')) := by
  rw [Option.map_map]
  congr 1
  funext t
  simp [after, String.append_assoc]

namespace Prompt

variable {n : Nat} {p q : Prompt}

theorem session_eq_ending (n : Nat) (hasHistory : Bool) (input : String) :
    session n hasHistory input = (start hasHistory input).ending n := rfl

theorem ending_of_answer? {text : List Char} (h : answer? n text p = some q) :
    (answer p.interpreter n p.store (.entry text :: inputEventsFrom p.buffer p.lines)).map
      (Transcript.after p.stdout p.stderr) = q.ending n := by
  rw [answer?] at h
  rw [answer]
  split at h
  · rename_i hempty
    cases h
    simp only [hempty, if_true]
    rfl
  split at h
  · cases h
  rename_i hempty hexit
  simp only [hempty, hexit, Bool.false_eq_true, if_false]
  cases hrun : (p.interpreter.run n (String.ofList (trimChars text))).run p.store with
  | value output s =>
    rw [hrun] at h
    cases h
    exact (Transcript.map_after_after ..).trans (by rw [String.append_empty]; rfl)
  | error e s =>
    rw [hrun] at h
    cases h
    exact (Transcript.map_after_after ..).trans (by rw [String.append_empty]; rfl)
  | unfinished =>
    rw [hrun] at h
    cases h

/-- A line makes no difference to the transcript. -/
theorem ending_of_next? (h : p.next? n = some q) : p.ending n = q.ending n := by
  rw [next?] at h
  split at h
  · cases h
  rename_i line lines hlines
  rw [ending, hlines, inputEventsFrom]
  cases hsplit : splitTerminator (p.buffer ++ line) with
  | mk front terminator =>
  simp only [hsplit] at h ⊢
  cases htext : applyBackspaces? front with
  | none =>
    rw [htext] at h
    cases h
  | some text =>
  simp only [htext] at h ⊢
  cases hverdict : Verdict.judge text with
  | complete =>
    rw [hverdict] at h
    exact ending_of_answer? h
  | incomplete =>
    rw [hverdict] at h
    cases h
    rfl
  | unmatched offset =>
    rw [hverdict] at h
    cases h
    simp only [answer]
    exact (Transcript.map_after_after ..).trans (by rw [String.append_empty]; rfl)

theorem exists_lines_of_next? (h : p.next? n = some q) : ∃ line lines, p.lines = line :: lines := by
  rw [next?] at h
  split at h
  · cases h
  · rename_i line lines hlines
    exact ⟨line, lines, hlines⟩

/-- So every prompt of a session tells its transcript. -/
theorem ending_of_reaches (h : Reaches n p q) : p.ending n = q.ending n := by
  induction h with
  | refl => rfl
  | tail _ hnext ih => exact ih.trans (ending_of_next? hnext)

/-! ## Brackets that stay -/

/-- The entry so far has a bracket that closes nothing, and nothing to come can take it
    away. -/
structure Swallowing (offset : Nat) (p : Prompt) : Prop where
  /-- The bracket is at byte `offset` of the buffer. -/
  judge_eq : Verdict.judge p.buffer = .unmatched offset
  /-- There is no backspace in the buffer, -/
  buffer_plain : '\x08' ∉ p.buffer
  /-- and none in the lines to come. -/
  lines_plain : ∀ line ∈ p.lines, '\x08' ∉ line

/-- The words about such a bracket, said `k` times. -/
def messages (offset k : Nat) : String := String.join (List.replicate k (unmatchedMessage offset))

theorem messages_succ (offset k : Nat) :
    messages offset (k + 1) = unmatchedMessage offset ++ messages offset k := by
  rw [messages, List.replicate_succ, String.join_cons, messages]

variable {offset : Nat} {text terminator line : List Char} {lines : List (List Char)}

/-- The prompt after a line with which the buffer is judged to have such a bracket. -/
theorem next?_of_judges (h : p.Judges text terminator lines)
    (hverdict : Verdict.judge text = .unmatched offset) :
    p.next? n =
      some { p with buffer := text, lines, stderr := p.stderr ++ unmatchedMessage offset } := by
  obtain ⟨line, front, hlines, hsplit, htext⟩ := h
  simp only [next?, hlines, hsplit, htext, hverdict]

/-- What is judged with a further line has the bracket where it was. -/
theorem Swallowing.exists_judges (h : p.Swallowing offset) (hlines : p.lines = line :: lines) :
    ∃ text terminator, p.Judges text terminator lines ∧
      Verdict.judge text = .unmatched offset := by
  cases hsplit : splitTerminator (p.buffer ++ line) with
  | mk front terminator =>
  obtain ⟨happend, hterminator⟩ := splitTerminator_append_eq hsplit
  have hline : '\x08' ∉ line := h.lines_plain line (by rw [hlines]; exact List.mem_cons_self)
  have hfront : '\x08' ∉ front := fun hmem => by
    have hmem : '\x08' ∈ p.buffer ++ line := happend ▸ List.mem_append_left terminator hmem
    exact (List.mem_append.1 hmem).elim h.buffer_plain hline
  refine ⟨front, terminator, ⟨line, front, hlines, hsplit, applyBackspaces?_of_not_mem hfront⟩, ?_⟩
  refine Verdict.judgeFrom_of_append ?_ hterminator
  rw [happend]
  exact Verdict.judgeFrom_append h.judge_eq line

/-- From there on the bracket stays, whether it was found now or before. -/
theorem swallowing_of_judges (h : p.Judges text terminator lines)
    (hverdict : Verdict.judge text = .unmatched offset) (hlines : ∀ line ∈ lines, '\x08' ∉ line)
    (stderr : String) : Swallowing offset { p with buffer := text, lines, stderr } := by
  obtain ⟨_, _, -, -, htext⟩ := h
  exact ⟨hverdict, not_mem_of_applyBackspaces? htext, hlines⟩

theorem Swallowing.next?_eq (h : p.Swallowing offset) (hlines : p.lines = line :: lines) :
    ∃ q, p.next? n = some q ∧ q.Swallowing offset ∧ q.lines = lines ∧ q.store = p.store ∧
      q.stdout = p.stdout ∧ q.stderr = p.stderr ++ unmatchedMessage offset := by
  obtain ⟨text, terminator, hjudges, hverdict⟩ := h.exists_judges hlines
  have hplain : ∀ line ∈ lines, '\x08' ∉ line := fun line hline =>
    h.lines_plain line (by rw [hlines]; exact List.mem_cons_of_mem _ hline)
  exact ⟨_, next?_of_judges hjudges hverdict, swallowing_of_judges hjudges hverdict hplain _, rfl,
    rfl, rfl, rfl⟩

/-- One message for each line read, and nothing else happens. -/
theorem Swallowing.of_reaches (h : p.Swallowing offset) (hreach : Reaches n p q) :
    q.store = p.store ∧ q.stdout = p.stdout ∧ ∃ k, p.lines.length = q.lines.length + k ∧
      q.stderr = p.stderr ++ messages offset k := by
  induction hreach using Relation.ReflTransGen.head_induction_on with
  | refl => exact ⟨rfl, rfl, 0, rfl, String.append_empty.symm⟩
  | @head p p' hnext _ ih =>
    obtain ⟨line, lines, hlines⟩ := exists_lines_of_next? hnext
    obtain ⟨_, hnext', hp', hlines', hstore, hstdout, hstderr⟩ := h.next?_eq (n := n) hlines
    cases hnext.symm.trans hnext'
    obtain ⟨hstore', hstdout', k, hk, hstderr'⟩ := ih hp'
    refine ⟨hstore'.trans hstore, hstdout'.trans hstdout, k + 1, ?_, ?_⟩
    · rw [hlines, List.length_cons, ← hlines', hk, Nat.add_assoc]
    · rw [hstderr', hstderr, messages_succ, String.append_assoc]

/-- At the end, there has been one for each line that was left. -/
theorem Swallowing.ending_eq (h : p.Swallowing offset) :
    p.ending n =
      some ⟨p.stdout ++ farewell, p.stderr ++ messages offset p.lines.length, 0⟩ := by
  induction hlines : p.lines generalizing p with
  | nil =>
    rw [ending, hlines]
    rfl
  | cons line lines ih =>
    obtain ⟨q, hnext, hq, hlines', -, hstdout, hstderr⟩ := h.next?_eq (n := n) hlines
    rw [ending_of_next? hnext, ih hq hlines', hstdout, hstderr, List.length_cons, messages_succ,
      String.append_assoc]

end Prompt

open Prompt

/-- As soon as the buffer is judged to have a bracket that closes nothing, and no
    backspace is to come, nothing more is evaluated or written to the standard output; with
    this line and each further one the same bracket is reported, whatever is in the line.
    The session ends with the input, and with its farewell. -/
theorem unmatched_swallows {n offset : Nat} {hasHistory : Bool} {input : String} {p : Prompt}
    {text terminator : List Char} {lines : List (List Char)}
    (hreach : Reaches n (start hasHistory input) p) (hjudges : p.Judges text terminator lines)
    (hverdict : Verdict.judge text = .unmatched offset) (hlines : ∀ line ∈ lines, '\x08' ∉ line) :
    (∀ q, Reaches n p q → q.store = p.store ∧ q.stdout = p.stdout ∧
      ∃ k, p.lines.length = q.lines.length + k ∧ q.stderr = p.stderr ++ messages offset k) ∧
    session n hasHistory input =
      some ⟨p.stdout ++ farewell, p.stderr ++ messages offset (lines.length + 1), 0⟩ := by
  have hnext := next?_of_judges (n := n) hjudges hverdict
  have hswallowing := swallowing_of_judges hjudges hverdict hlines
    (p.stderr ++ unmatchedMessage offset)
  constructor
  · intro q hq
    rcases hq.cases_head with rfl | ⟨p', hnext', hq⟩
    · exact ⟨rfl, rfl, 0, rfl, String.append_empty.symm⟩
    · cases hnext.symm.trans hnext'
      obtain ⟨hstore, hstdout, k, hk, hstderr⟩ := hswallowing.of_reaches hq
      obtain ⟨_, _, hplines, -, -⟩ := hjudges
      refine ⟨hstore, hstdout, k + 1, ?_, ?_⟩
      · rw [hplines, List.length_cons, hk, Nat.add_assoc]
      · rw [hstderr, messages_succ, String.append_assoc]
  · rw [session_eq_ending, ending_of_reaches hreach, ending_of_next? hnext, hswallowing.ending_eq,
      messages_succ, String.append_assoc]

/-- The carriage return before the first terminator goes with the line feed on the next
    line, which is empty. -/
theorem unmatched_swallows_after_result :
    Verdict.judge ")\r".toList = .unmatched 0 ∧
      session 1 false "7\n)\r\r\n\n(list 1)" = some
        ⟨"Schemelet REPL v0.1.0\nType 'exit' or press Ctrl-D to quit.\nNo previous history.\n" ++
            "7\n" ++ "\nExiting.\n",
          "  - Unmatched ')' at position 0" ++ "  - Unmatched ')' at position 0" ++
            "  - Unmatched ')' at position 0", 0⟩ := by
  have hnext : (start false "7\n)\r\r\n\n(list 1)").next? 1 =
      some { start false "7\n)\r\r\n\n(list 1)" with
        lines := [[')', '\r', '\r', '\n'], ['\n'], "(list 1)".toList]
        stdout := banner ++ noHistory ++ "7\n" } := by cbv
  have hverdict : Verdict.judge ")\r".toList = .unmatched 0 := by decide
  obtain ⟨-, hsession⟩ := unmatched_swallows (.single hnext)
    (.mk _ _ rfl rfl (applyBackspaces?_of_not_mem (by decide))) hverdict (by decide)
  exact ⟨hverdict, hsession.trans (by decide)⟩

end Console

end SmallScheme
