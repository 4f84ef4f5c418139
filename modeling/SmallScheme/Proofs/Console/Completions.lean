import Mathlib.Data.List.DropRight
import Mathlib.Data.String.Basic
import SmallScheme.Console.Completion
import SmallScheme.Proofs.Machine.Start
import SmallScheme.Proofs.Reader.Slices

/-!
# What a word can be completed to

The word before the cursor is the longest stretch of the line that ends there and that
nothing in it ends (`start_le_of_wordAt`). What it can be completed to are the names
that start with it and that evaluation finds a meaning for, as an operator or in the
scope (`Means`), in their order and each once (`completions_exact`).

The names come from two lists, which may have names in common and are in no order.
Putting them into another list one by one, each at its place and only if it is not
there yet, makes that list strictly increasing and keeps its members
(`pairwise_sortedNames`, `mem_sortedNames`).
-/

namespace SmallScheme.Console

open Text

/-- The byte `offset` is between two characters of `cs`, or at one of its ends. -/
def IsBoundary (offset : Nat) (cs : List Char) : Prop :=
  ∃ before after, cs = before ++ after ∧ offset = utf8Length before

/-- The characters `word` of the line `cs` go from byte `start` up to the cursor, and
    nothing in them ends a word. -/
structure WordAt (cs : List Char) (start cursor : Nat) (word : List Char) : Prop where
  /-- They are all that stands there. -/
  covers : (Span.mk start cursor).Covers cs word
  /-- There is no white space, bracket or quote mark among them. -/
  plain : ∀ c ∈ word, endsWord c = false

/-- The name means something in the scope: at the head of a form, or as a variable. -/
def Means (s : Store) (scope : FrameRef) (name : String) : Prop :=
  (∃ op, Operator.named? name = some op) ∨ ∃ v, s.lookup? scope name = some v

/-! ## The word -/

section Word

variable {before other : List Char} {cs : List Char} {start cursor : Nat}

theorem lastWord_suffix (before : List Char) : lastWord before <:+ before :=
  List.rtakeWhile_suffix (fun c => !endsWord c) before

theorem endsWord_of_mem_lastWord {c : Char} (h : c ∈ lastWord before) : endsWord c = false := by
  simpa using List.mem_rtakeWhile_imp h

/-- There is no longer word. -/
theorem suffix_lastWord (h : other <:+ before) (hplain : ∀ c ∈ other, endsWord c = false) :
    other <:+ lastWord before := by
  obtain ⟨front, rfl⟩ := h
  have hpos : ∀ c ∈ other.reverse, !endsWord c := fun c hc => by
    simp [hplain c (List.mem_reverse.1 hc)]
  rw [lastWord, List.reverse_append, List.takeWhile_append_of_pos hpos, List.reverse_append,
    List.reverse_reverse]
  exact List.suffix_append _ _

/-- Where the characters before the cursor are known, a word is one of their ends. -/
theorem WordAt.suffix {after word : List Char}
    (h : WordAt (before ++ after) start (utf8Length before) word) :
    word <:+ before ∧ start + utf8Length word = utf8Length before := by
  obtain ⟨front, back, hcs, hspan⟩ := h.covers
  obtain ⟨rfl, hcursor⟩ := Span.mk.inj hspan
  have hbefore : before = front ++ word := by
    rw [← takeBytes_utf8Length before after, hcs, hcursor, takeBytes_utf8Length]
  refine ⟨⟨front, hbefore.symm⟩, ?_⟩
  rw [hbefore, utf8Length_append]

theorem wordAt_lastWord (before after : List Char) :
    WordAt (before ++ after) (utf8Length before - utf8Length (lastWord before))
      (utf8Length before) (lastWord before) := by
  obtain ⟨front, hfront⟩ := lastWord_suffix before
  have hlength : utf8Length front + utf8Length (lastWord before) = utf8Length before := by
    rw [← utf8Length_append, hfront]
  refine ⟨⟨front, after, by rw [hfront], ?_⟩, fun c => endsWord_of_mem_lastWord⟩
  rw [hfront, ← hlength, Nat.add_sub_cancel]

/-- No word that ends at the cursor begins earlier. -/
theorem start_le_of_wordAt {after word : List Char}
    (h : WordAt (before ++ after) start (utf8Length before) word) :
    utf8Length before - utf8Length (lastWord before) ≤ start := by
  obtain ⟨hsuffix, hstart⟩ := h.suffix
  obtain ⟨front, hfront⟩ := suffix_lastWord hsuffix h.plain
  rw [← hstart, ← hfront, utf8Length_append]
  omega

end Word

/-! ## The names -/

section Names

variable {name other : String} {names : List String}

theorem mem_insertName : other ∈ insertName name names ↔ other = name ∨ other ∈ names := by
  induction names with
  | nil => simp [insertName]
  | cons first names ih =>
    rw [insertName]
    split
    · rw [List.mem_cons]
    split
    · rename_i heq
      rw [heq, List.mem_cons, or_self_left]
    · rw [List.mem_cons, ih, List.mem_cons, or_left_comm]

theorem pairwise_insertName (h : names.Pairwise (· < ·)) :
    (insertName name names).Pairwise (· < ·) := by
  induction names with
  | nil => exact List.pairwise_singleton _ _
  | cons first names ih =>
    obtain ⟨hfirst, hnames⟩ := List.pairwise_cons.1 h
    rw [insertName]
    split
    · rename_i hlt
      refine List.pairwise_cons.2 ⟨List.forall_mem_cons.2 ⟨hlt, fun other hother => ?_⟩, h⟩
      exact hlt.trans (hfirst other hother)
    split
    · exact h
    · -- What is put in comes after the first name, as all the others do.
      rename_i hnot hne
      refine List.pairwise_cons.2 ⟨fun other hother => ?_, ih hnames⟩
      rcases mem_insertName.1 hother with rfl | hother
      · exact lt_of_le_of_ne (not_lt.1 hnot) (Ne.symm hne)
      · exact hfirst other hother

theorem mem_sortedNames : name ∈ sortedNames names ↔ name ∈ names := by
  induction names with
  | nil => rfl
  | cons first names ih =>
    rw [sortedNames, List.foldr_cons, mem_insertName, ← sortedNames, ih, List.mem_cons]

theorem pairwise_sortedNames (names : List String) : (sortedNames names).Pairwise (· < ·) := by
  induction names with
  | nil => exact .nil
  | cons first names ih => exact pairwise_insertName ih

/-- The two lists together have the names that mean something. -/
theorem mem_names_iff_means {s : Store} {scope : FrameRef} :
    name ∈ s.identifiers scope ++ Operator.all.map Operator.name ↔ Means s scope name := by
  rw [List.mem_append, Store.mem_identifiers_iff, Operator.mem_names_iff, Option.isSome_iff_exists,
    or_comm, Means]

end Names

/-! ## Completions -/

section Completion

variable {line : String} {before after : List Char}

theorem completeAmong_of_eq_append (names : List String) (hline : line.toList = before ++ after) :
    completeAmong names line (utf8Length before) =
      ⟨utf8Length before - utf8Length (lastWord before),
        if lastWord before = [] then []
        else sortedNames (names.filter fun name => (lastWord before).isPrefixOf name.toList)⟩ := by
  rw [completeAmong, hline, takeBytes_utf8Length]
  cases lastWord before <;> rfl

/-- The word that is completed begins and ends between characters of the line, at the
    cursor at last; nothing in it ends a word, and no such word begins earlier. If it is
    empty, there are no candidates. If it is not, they are in order, no two of them
    equal, and are all the names that start with it and mean something. -/
theorem completions_exact (s : Store) (scope : FrameRef) {line : String} {cursor : Nat}
    (h : IsBoundary cursor line.toList) :
    ∃ word, WordAt line.toList (complete s scope line cursor).start cursor word ∧
      (∀ start other, WordAt line.toList start cursor other →
        (complete s scope line cursor).start ≤ start) ∧
      (word = [] → (complete s scope line cursor).candidates = []) ∧
      (word ≠ [] → (complete s scope line cursor).candidates.Pairwise (· < ·) ∧
        ∀ name, name ∈ (complete s scope line cursor).candidates ↔
          word <+: name.toList ∧ Means s scope name) := by
  obtain ⟨before, after, hline, rfl⟩ := h
  rw [complete, completeAmong_of_eq_append _ hline, hline]
  refine ⟨lastWord before, wordAt_lastWord before after, fun start other => start_le_of_wordAt,
    fun hnil => if_pos hnil, fun hne => ?_⟩
  rw [if_neg hne]
  refine ⟨pairwise_sortedNames _, fun name => ?_⟩
  rw [mem_sortedNames, List.mem_filter, mem_names_iff_means, List.isPrefixOf_iff_prefix, and_comm]

/-- A global frame with a name of an operator and another one, and a line with a
    character of two bytes before the word. -/
theorem completions_exact_shared_name :
    let s : Store := ⟨#[], #[], #[⟨none, [("cat", .nil), ("car", .nil)]⟩]⟩
    IsBoundary 6 "(é cax".toList ∧ complete s ⟨0⟩ "(é cax" 6 = ⟨4, ["car", "cat"]⟩ ∧
      ∃ word, WordAt "(é cax".toList 4 6 word ∧
        (∀ start other, WordAt "(é cax".toList start 6 other → 4 ≤ start) ∧
        ∀ name, name ∈ ["car", "cat"] ↔ word <+: name.toList ∧ Means s ⟨0⟩ name := by
  have hboundary : IsBoundary 6 "(é cax".toList := ⟨"(é ca".toList, ['x'], rfl, rfl⟩
  have hcomplete : complete ⟨#[], #[], #[⟨none, [("cat", .nil), ("car", .nil)]⟩]⟩ ⟨0⟩ "(é cax" 6 =
      ⟨4, ["car", "cat"]⟩ := by decide +kernel
  intro s
  obtain ⟨word, hword, hleast, hnil, hnames⟩ := completions_exact s ⟨0⟩ hboundary
  rw [hcomplete] at hword hleast hnil hnames
  exact ⟨hboundary, hcomplete, word, hword, hleast,
    (hnames fun h => List.cons_ne_nil _ _ (hnil h)).2⟩

end Completion

end SmallScheme.Console
