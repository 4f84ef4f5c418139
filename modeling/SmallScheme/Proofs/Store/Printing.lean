import SmallScheme.Proofs.Store.Depth
import SmallScheme.Proofs.Store.Display

/-!
# The printing rule

What the display of a value is, by a rule that looks at one pair at a time and knows
nothing of what has been written before or of a number of steps (`Store.Prints`).

The printer keeps to it (`display_by_rule`). It begins a list and goes on with it in
different places, but goes on as it would begin (`writeRest_pair`), so one induction on
the steps shows that all that is written is by the rule (`prints_of_writePair`). The
other way round, the rule is followed in a finite number of steps
(`Prints.exists_writePair`), and then the printer's bound allows for them.

Acyclic values have a display. They are not the only ones: what comes after an
element that is the empty list may well go round.
-/

namespace SmallScheme

/-- The form in which a value stands among the elements of a list, if `text` is its
    display: a pair in brackets. -/
def Value.enclosed (v : Value) (text : String) : String :=
  match v with
  | .pair _ => "(" ++ text ++ ")"
  | .nil | .integer _ | .symbol _ | .closure _ => text

namespace Store

/-- The display of a value, by rule. -/
inductive Prints (s : Store) : Value → String → Prop
  | nil : Prints s .nil "()"
  | integer (n : Fixnum) : Prints s (.integer n) n.toInt.repr
  | symbol (name : String) : Prints s (.symbol name) name
  | closure (ref : ClosureRef) : Prints s (.closure ref) "#<closure>"
  /-- After an element that is the empty list, nothing is shown. -/
  | cut {r : PairRef} : (s.pair r).car = .nil → Prints s (.pair r) "()"
  /-- The last element stands alone. -/
  | last {r : PairRef} {first : String} : (s.pair r).car ≠ .nil → (s.pair r).cdr = .nil →
      Prints s (s.pair r).car first → Prints s (.pair r) ((s.pair r).car.enclosed first)
  /-- Between elements there is a space. -/
  | more {r q : PairRef} {first rest : String} : (s.pair r).car ≠ .nil →
      (s.pair r).cdr = .pair q → Prints s (s.pair r).car first → Prints s (.pair q) rest →
      Prints s (.pair r) ((s.pair r).car.enclosed first ++ " " ++ rest)
  /-- Any other tail is set off by a dot. -/
  | dotted {r : PairRef} {first tail : String} : (s.pair r).car ≠ .nil →
      (s.pair r).cdr ≠ .nil → (∀ q, (s.pair r).cdr ≠ .pair q) →
      Prints s (s.pair r).car first → Prints s (s.pair r).cdr tail →
      Prints s (.pair r) ((s.pair r).car.enclosed first ++ " . " ++ (s.pair r).cdr.enclosed tail)

variable {s : Store} {v : Value} {r : PairRef} {n : Nat} {out text : String}

theorem exists_eq_pair_or_ne (v : Value) : (∃ r, v = .pair r) ∨ ∀ r, v ≠ .pair r := by
  cases v <;> simp

/-! ## Values other than pairs -/

theorem prints_iff_of_ne_pair (h : ∀ r, v ≠ .pair r) : s.Prints v text ↔ text = v.atomText := by
  constructor
  · intro hprints
    cases v with
    | pair r => exact absurd rfl (h r)
    | nil | integer | symbol | closure =>
      cases hprints
      rfl
  · rintro rfl
    cases v with
    | pair r => exact absurd rfl (h r)
    | nil => exact .nil
    | integer n => exact .integer n
    | symbol name => exact .symbol name
    | closure ref => exact .closure ref

theorem enclosed_of_ne_pair (h : ∀ r, v ≠ .pair r) : v.enclosed text = text := by
  cases v with
  | pair r => exact absurd rfl (h r)
  | nil | integer | symbol | closure => rfl

theorem writeElement_of_ne_pair {inside : PairRef → String → Option String}
    (h : ∀ r, v ≠ .pair r) : writeElement inside v out = some (out ++ v.atomText) := by
  cases v with
  | pair r => exact absurd rfl (h r)
  | nil | integer | symbol | closure => rfl

theorem display?_of_ne_pair (h : ∀ r, v ≠ .pair r) : s.display? v = some v.atomText := by
  cases v with
  | pair r => exact absurd rfl (h r)
  | nil | integer | symbol | closure => rfl

theorem render?_of_ne_pair (h : ∀ r, v ≠ .pair r) : s.render? v = some v.atomText := by
  cases v with
  | pair r => exact absurd rfl (h r)
  | nil | integer | symbol | closure => rfl

/-! ## What is written is by the rule -/

theorem prints_of_writeElement {inside : PairRef → String → Option String}
    (hinside : ∀ r out text, inside r out = some text →
      ∃ shown, s.Prints (.pair r) shown ∧ text = out ++ shown)
    (h : writeElement inside v out = some text) :
    ∃ shown, s.Prints v shown ∧ text = out ++ v.enclosed shown := by
  obtain ⟨r, rfl⟩ | hne := exists_eq_pair_or_ne v
  · obtain ⟨written, hwritten, rfl⟩ := Option.map_eq_some_iff.1 h
    obtain ⟨shown, hshown, rfl⟩ := hinside r _ _ hwritten
    exact ⟨shown, hshown, by simp [Value.enclosed, String.append_assoc]⟩
  · rw [writeElement_of_ne_pair hne] at h
    refine ⟨v.atomText, (prints_iff_of_ne_pair hne).2 rfl, ?_⟩
    rw [enclosed_of_ne_pair hne, Option.some.inj h]

theorem prints_of_writePair (h : s.writePair n r out = some text) :
    ∃ shown, s.Prints (.pair r) shown ∧ text = out ++ shown := by
  induction n generalizing r out text with
  | zero => cases h
  | succ n ih =>
    rw [writePair] at h
    by_cases hnil : (s.pair r).car = .nil
    · rw [if_pos hnil] at h
      exact ⟨"()", .cut hnil, (Option.some.inj h).symm⟩
    · rw [if_neg hnil] at h
      obtain ⟨written, helement, hrest⟩ := Option.bind_eq_some_iff.1 h
      obtain ⟨first, hfirst, rfl⟩ := prints_of_writeElement (fun _ _ _ => ih) helement
      -- The three ways in which a list goes on.
      by_cases hend : (s.pair r).cdr = .nil
      · rw [hend, writeRest_nil] at hrest
        exact ⟨_, .last hnil hend hfirst, (Option.some.inj hrest).symm⟩
      obtain ⟨q, hq⟩ | hne := exists_eq_pair_or_ne (s.pair r).cdr
      · rw [hq, writeRest_pair] at hrest
        obtain ⟨rest, hshown, rfl⟩ := ih hrest
        exact ⟨_, .more hnil hq hfirst hshown, by simp only [String.append_assoc]⟩
      · rw [writeRest_tail hend hne] at hrest
        refine ⟨_, .dotted hnil hend hne hfirst ((prints_iff_of_ne_pair hne).2 rfl), ?_⟩
        rw [enclosed_of_ne_pair hne, ← Option.some.inj hrest]
        simp only [String.append_assoc]

/-! ## What the rule says is written -/

theorem Prints.writeElement_eq (h : s.Prints v text)
    (hpair : ∀ r, v = .pair r → ∀ out, s.writePair n r out = some (out ++ text)) (out : String) :
    writeElement (s.writePair n) v out = some (out ++ v.enclosed text) := by
  cases v with
  | pair r => simp [writeElement, hpair r rfl, Value.enclosed, String.append_assoc]
  | nil | integer | symbol | closure =>
    cases h
    rfl

theorem Prints.exists_writePair (h : s.Prints v text) :
    ∃ n, ∀ r, v = .pair r → ∀ out, s.writePair n r out = some (out ++ text) := by
  induction h with
  | nil | integer | symbol | closure => exact ⟨0, fun _ hr => nomatch hr⟩
  | cut hnil =>
    refine ⟨1, ?_⟩
    rintro _ ⟨⟩ out
    rw [writePair, if_pos hnil]
  | last hnil hend hfirst ih =>
    obtain ⟨n, hn⟩ := ih
    refine ⟨n + 1, ?_⟩
    rintro _ ⟨⟩ out
    rw [writePair, if_neg hnil, hfirst.writeElement_eq hn, hend]
    exact writeRest_nil _
  | more hnil hq hfirst _ ih ih' =>
    obtain ⟨n, hn⟩ := ih
    obtain ⟨m, hm⟩ := ih'
    -- Enough steps for the element and for all that comes after it.
    refine ⟨max n m + 1, ?_⟩
    rintro _ ⟨⟩ out
    rw [writePair, if_neg hnil, hq, hfirst.writeElement_eq fun r hr out =>
      writePair_mono (Nat.le_max_left n m) (hn r hr out)]
    refine (writeRest_pair _ _).trans ?_
    rw [writePair_mono (Nat.le_max_right n m) (hm _ rfl _)]
    simp only [String.append_assoc]
  | dotted hnil hend hne hfirst htail ih _ =>
    obtain ⟨n, hn⟩ := ih
    refine ⟨n + 1, ?_⟩
    rintro _ ⟨⟩ out
    rw [writePair, if_neg hnil, hfirst.writeElement_eq hn, enclosed_of_ne_pair hne,
      (prints_iff_of_ne_pair hne).1 htail]
    refine (writeRest_tail hend hne _).trans ?_
    simp only [String.append_assoc]

/-- The printer, with its bound on the steps, writes the inside of a list by the rule. -/
theorem writePair_eq_some_iff_prints : s.writePair (s.pairs.size + 1) r out = some text ↔
    ∃ shown, s.Prints (.pair r) shown ∧ text = out ++ shown := by
  refine ⟨prints_of_writePair, ?_⟩
  rintro ⟨shown, hshown, rfl⟩
  obtain ⟨n, hn⟩ := hshown.exists_writePair
  exact writePair_eq_some_iff.2 ⟨n, hn r rfl out⟩

theorem display?_eq_some_iff : s.display? v = some text ↔ s.Prints v text := by
  obtain ⟨r, rfl⟩ | hne := exists_eq_pair_or_ne v
  · rw [display?, writePair_eq_some_iff_prints]
    simp
  · rw [prints_iff_of_ne_pair hne, display?_of_ne_pair hne, Option.some_inj, eq_comm]

theorem render?_eq_some_iff :
    s.render? v = some text ↔ ∃ shown, s.Prints v shown ∧ text = v.enclosed shown := by
  obtain ⟨r, rfl⟩ | hne := exists_eq_pair_or_ne v
  · rw [render?, Option.map_eq_some_iff]
    constructor
    · rintro ⟨written, hwritten, rfl⟩
      obtain ⟨shown, hshown, rfl⟩ := writePair_eq_some_iff_prints.1 hwritten
      exact ⟨shown, hshown, rfl⟩
    · rintro ⟨shown, hshown, rfl⟩
      exact ⟨_, writePair_eq_some_iff_prints.2 ⟨shown, hshown, rfl⟩, rfl⟩
  · simp only [prints_iff_of_ne_pair hne, exists_eq_left, enclosed_of_ne_pair hne]
    rw [render?_of_ne_pair hne, Option.some_inj, eq_comm]

/-- The display of a value is what the printing rule says, and it has none just if the
    rule gives no text; its rendering is the same text, in brackets for a pair. The rule
    gives a text for every acyclic value. -/
theorem display_by_rule (s : Store) (v : Value) :
    (∀ text, s.display? v = some text ↔ s.Prints v text) ∧
    (∀ text, s.render? v = some text ↔ ∃ shown, s.Prints v shown ∧ text = v.enclosed shown) ∧
    (s.Acyclic v → ∃ text, s.Prints v text) := by
  refine ⟨fun _ => display?_eq_some_iff, fun _ => render?_eq_some_iff, fun h => ?_⟩
  obtain ⟨tree, hunfold, hheight⟩ := exists_unfolds_of_acyclic h
  exact ⟨tree.display, display?_eq_some_iff.1 (display?_eq_some hunfold hheight)⟩

/-- The value `((1 . x) () . y)`. -/
def hidden : Store :=
  ⟨#[⟨.integer .one, .symbol "x"⟩, ⟨.nil, .symbol "y"⟩, ⟨.pair ⟨0⟩, .pair ⟨1⟩⟩], #[], #[]⟩

theorem display_by_rule_hidden : hidden.Acyclic (.pair ⟨2⟩) ∧
    hidden.Prints (.pair ⟨2⟩) "(1 . x) ()" ∧ hidden.render? (.pair ⟨2⟩) = some "((1 . x) ())" := by
  have hunfold : hidden.Unfolds (.pair ⟨2⟩) _ :=
    .pair (r := ⟨2⟩) (.pair (r := ⟨0⟩) (.integer _) (.symbol _))
      (.pair (r := ⟨1⟩) .nil (.symbol _))
  obtain ⟨hdisplay, hrender, hexists⟩ := display_by_rule hidden (.pair ⟨2⟩)
  obtain ⟨text, htext⟩ := hexists hunfold.acyclic
  have hshown : hidden.display? (.pair ⟨2⟩) = some "(1 . x) ()" := by decide
  obtain rfl : "(1 . x) ()" = text := Option.some.inj (hshown.symm.trans ((hdisplay text).2 htext))
  exact ⟨hunfold.acyclic, htext, (hrender _).2 ⟨_, htext, rfl⟩⟩

/-- A list that goes round is displayed if it goes round behind an empty list. -/
example : (Store.mk #[⟨.nil, .pair ⟨0⟩⟩] #[] #[]).display? (.pair ⟨0⟩) = some "()" := by decide

end Store

end SmallScheme
