import SmallScheme.Console.Brackets
import SmallScheme.Text.Grapheme
import SmallScheme.Text.Utf8

/-!
# Entries from a pipe

When its input is not a terminal, the prompt still reads *entries*: inputs of
one or more lines. Lines are put into a buffer until the brackets in it are all
closed; then the buffer is the entry. The end of the input inside an entry loses
the entry.

* The terminator of a line is taken off, a line feed or a carriage return and a
  line feed, and put back if more lines are needed.
* A backspace takes away the grapheme before it, which is what a reader takes for
  one character, with all its accents (`SmallScheme.Text.Grapheme`). Only the size
  of each grapheme is remembered for this, in a single byte. One of 256 bytes or
  more is thus remembered too short, and only its end is taken away; where that
  cuts through a character, reading is aborted.
* A bracket that closes nothing is reported, and the buffer kept. Since it stays
  in there, no further line makes the buffer complete, and each one is reported
  again.
-/

namespace SmallScheme.Console

open Text

/-- The lines of a text, each with its line feed. -/
def splitLines : List Char → List (List Char)
  | [] => []
  | c :: cs =>
    if c == '\n' then [c] :: splitLines cs
    else
      match splitLines cs with
      | [] => [[c]]
      | line :: lines => (c :: line) :: lines

/-- A buffer without its terminator, and the terminator, if it has one. -/
def splitTerminator (buffer : List Char) : List Char × List Char :=
  match buffer.reverse with
  | '\n' :: '\r' :: front => (front.reverse, ['\r', '\n'])
  | '\n' :: front => (front.reverse, ['\n'])
  | _ => (buffer, [])

/-- What has been typed so far, all of it in reverse. -/
structure Typed where
  /-- The characters. -/
  kept : List Char
  /-- The sizes remembered of the graphemes that a backspace can take away. -/
  sizes : List Nat
deriving DecidableEq, Repr

/-- The size remembered of a grapheme: its bytes, as far as a byte can count
    them. -/
def rememberedSize (grapheme : List Char) : Nat := utf8Length grapheme % 256

/-- What is left of `cs` without its first `n` bytes; nothing if these end within
    a character. -/
def dropBytes? (n : Nat) : List Char → Option (List Char)
  | [] => if n = 0 then some [] else none
  | c :: cs =>
    if n = 0 then some (c :: cs)
    else if c.utf8Size ≤ n then dropBytes? (n - c.utf8Size) cs
    else none

/-- What has been typed with one more grapheme, which may be a backspace. -/
def Typed.add? (typed : Typed) (grapheme : List Char) : Option Typed :=
  if grapheme == ['\x08'] then
    match typed.sizes with
    | [] => some typed
    | size :: sizes => (dropBytes? size typed.kept).map fun kept => ⟨kept, sizes⟩
  else some ⟨grapheme.reverse ++ typed.kept, rememberedSize grapheme :: typed.sizes⟩

/-- What is left of a buffer when its backspaces have done their work; nothing if
    one of them cuts through a character. Graphemes are those of the buffer as it
    was typed: what comes together only because something between was taken away
    is still apart. -/
def applyBackspaces? (buffer : List Char) : Option (List Char) :=
  ((graphemes buffer).foldlM Typed.add? ⟨[], []⟩).map fun typed => typed.kept.reverse

theorem foldlM_add?_of_forall_not_mem (typed : Typed) (gs : List (List Char))
    (h : ∀ g ∈ gs, '\x08' ∉ g) :
    ∃ sizes, gs.foldlM Typed.add? typed = some ⟨gs.flatten.reverse ++ typed.kept, sizes⟩ := by
  induction gs generalizing typed with
  | nil => exact ⟨typed.sizes, rfl⟩
  | cons g gs ih =>
    have hg : (g == ['\x08']) = false := by
      rw [beq_eq_false_iff_ne]
      intro hg
      exact h g List.mem_cons_self (by simp [hg])
    obtain ⟨sizes, hs⟩ := ih ⟨g.reverse ++ typed.kept, rememberedSize g :: typed.sizes⟩
      fun g' hg' => h g' (List.mem_cons_of_mem _ hg')
    refine ⟨sizes, ?_⟩
    simp [List.foldlM_cons, Typed.add?, hg, hs]

/-- Without a backspace, a buffer is what was typed. -/
theorem applyBackspaces?_of_not_mem {buffer : List Char} (h : '\x08' ∉ buffer) :
    applyBackspaces? buffer = some buffer := by
  have hflat := flatten_graphemes buffer
  obtain ⟨sizes, hs⟩ := foldlM_add?_of_forall_not_mem ⟨[], []⟩ (graphemes buffer) fun g hg hc =>
    h (hflat ▸ List.mem_flatten_of_mem hg hc)
  simp [applyBackspaces?, hs, hflat]

/-- Something that happens while entries are read. -/
inductive InputEvent where
  /-- An entry is complete. -/
  | entry (text : List Char)
  /-- The bracket at byte `offset` of the buffer is reported. -/
  | unmatched (offset : Nat)
  /-- A backspace cuts through a character, and nothing more is read. -/
  | aborted
deriving DecidableEq, Repr

/-- What happens while the given lines are read, up to the end of the input, if
    `buffer` holds the entry so far. -/
def inputEventsFrom (buffer : List Char) : List (List Char) → List InputEvent
  | [] => []
  | line :: lines =>
    let (front, terminator) := splitTerminator (buffer ++ line)
    match applyBackspaces? front with
    | none => [.aborted]
    | some text =>
      match Verdict.judge text with
      | .complete => .entry text :: inputEventsFrom [] lines
      | .incomplete => inputEventsFrom (text ++ terminator) lines
      | .unmatched offset => .unmatched offset :: inputEventsFrom text lines

/-- What happens while an input is read, up to its end. -/
def inputEvents (input : String) : List InputEvent :=
  inputEventsFrom [] (splitLines input.toList)

end SmallScheme.Console
