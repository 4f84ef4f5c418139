import SmallScheme.Interpreter
import SmallScheme.Proofs.Machine.Adequacy

/-!
# Sessions, moment by moment

What an interpreter goes through while it answers one text after another. At
each *moment* of a session there is a machine, which evaluates the expression
entered last or has done with it, and the expressions entered so far. From one
moment to the next the machine makes a step, or, if it has come to its end, the
next expression is read, stored and entered (`Interpreter.Next`). A text that is
not one expression changes nothing, so no moment belongs to it.

A session that is given certain texts goes through part of these moments
(`Interpreter.Through`), and the answers of `Interpreter.runAll` to them are found
on its way (`runAll_leaves_later`): what holds at all moments of all sessions holds
before and after every text, and while its expression is evaluated.
-/

namespace SmallScheme

/-- A moment of a session. -/
structure Moment where
  /-- The expressions entered so far, the latest first. -/
  entered : List Value
  /-- The machine that evaluates the latest. -/
  machine : Machine

namespace Moment

/-- Nothing has been entered yet. -/
def start (s : Store) : Moment := ⟨[], ⟨.value .nil, [], s⟩⟩

/-- The moment at which a datum has been stored, to be evaluated in `scope`. -/
def enter (M : Moment) (scope : FrameRef) (datum : Datum) : Moment where
  entered := (M.machine.store.load datum).1 :: M.entered
  machine := ⟨.evaluate (M.machine.store.load datum).1 scope, [], (M.machine.store.load datum).2⟩

end Moment

namespace Interpreter

/-- What may come next in a session with an interpreter. -/
inductive Next (i : Interpreter) : Moment → Moment → Prop
  | step {entered : List Value} {m m' : Machine} : m.step = some m' →
      Next i ⟨entered, m⟩ ⟨entered, m'⟩
  | enter {M : Moment} {text : String} {datum : Datum} : M.machine.Ended →
      readExpression text = .ok datum → Next i M (M.enter i.scope datum)

/-- What may come after a moment of a session, at any time. -/
def Later (i : Interpreter) : Moment → Moment → Prop := Relation.ReflTransGen i.Next

/-- The moments of the sessions with an interpreter that is created in `s`. -/
def Passes (s : Store) (M : Moment) : Prop := (new s).1.Later (.start (new s).2) M

/-- The moments that a session goes through from `M` on, by the texts that it has been
    given since: those at which the last of them is being answered or has its answer. -/
inductive Through (i : Interpreter) (M : Moment) : List String → Moment → Prop
  | start : Through i M [] M
  | step {texts : List String} {entered : List Value} {m m' : Machine} :
      Through i M texts ⟨entered, m⟩ → m.step = some m' → Through i M texts ⟨entered, m'⟩
  | enter {texts : List String} {M' : Moment} {text : String} {datum : Datum} :
      Through i M texts M' → M'.machine.Ended → readExpression text = .ok datum →
      Through i M (texts ++ [text]) (M'.enter i.scope datum)
  | refuse {texts : List String} {M' : Moment} {text : String} {e : RunError} :
      Through i M texts M' → M'.machine.Ended → readExpression text = .error e →
      Through i M (texts ++ [text]) M'

variable {i : Interpreter} {M M' M'' : Moment}

theorem Later.of_reaches {entered : List Value} {m m' : Machine} (h : m.Reaches m') :
    i.Later ⟨entered, m⟩ ⟨entered, m'⟩ := by
  induction h with
  | refl => exact .refl
  | tail _ hstep ih => exact ih.tail (.step hstep)

namespace Through

variable {texts more : List String}

theorem later (h : i.Through M texts M') : i.Later M M' := by
  induction h with
  | start => exact .refl
  | step _ hstep ih => exact ih.tail (.step hstep)
  | enter _ hended htext ih => exact ih.tail (.enter hended htext)
  | refuse _ _ _ ih => exact ih

theorem reaches {entered : List Value} {m m' : Machine} (h : i.Through M texts ⟨entered, m⟩)
    (hm : m.Reaches m') : i.Through M texts ⟨entered, m'⟩ := by
  induction hm with
  | refl => exact h
  | tail _ hstep ih => exact ih.step hstep

theorem trans (h : i.Through M texts M') (h' : i.Through M' more M'') :
    i.Through M (texts ++ more) M'' := by
  induction h' with
  | start =>
    rw [List.append_nil]
    exact h
  | step _ hstep ih => exact ih.step hstep
  | enter _ hended htext ih =>
    rw [← List.append_assoc]
    exact ih.enter hended htext
  | refuse _ hended htext ih =>
    rw [← List.append_assoc]
    exact ih.refuse hended htext

end Through

theorem run_eq (i : Interpreter) (n : Nat) (text : String) (s : Store) :
    (i.run n text).run s = match readExpression text with
      | .error e => .error e s
      | .ok datum => (StoreM.mapError .evaluation (i.evaluate n datum >>= Eval.render)).run s := by
  unfold run
  rcases readExpression text with e | datum <;> rfl

/-- However a text is answered, the session goes on from the store that this
    leaves. -/
theorem run_leaves_later (i : Interpreter) (n : Nat) (text : String) (hM : M.machine.Ended) :
    ((i.run n text).run M.machine.store).Leaves fun s =>
      ∃ M', i.Through M [text] M' ∧ M'.machine.Ended ∧ M'.machine.store = s := by
  rw [run_eq]
  rcases htext : readExpression text with e | datum
  · exact ⟨M, Through.start.refuse hM htext, hM, rfl⟩
  -- The machine evaluates the datum in the store in which it was entered.
  have hp := Machine.performs_evaluate n (M.machine.store.load datum).1 i.scope []
    (M.machine.store.load datum).2
  have through : ∀ {m' : Machine}, Machine.Reaches (M.enter i.scope datum).machine m' → m'.Ended →
      ∃ M', i.Through M [text] M' ∧ M'.machine.Ended ∧ M'.machine.store = m'.store := fun h he =>
    ⟨⟨(M.enter i.scope datum).entered, _⟩, (Through.start.enter hM htext).reaches h, he, rfl⟩
  simp only [StoreM.run_mapError, StoreM.run_bind, evaluate, StoreM.run_create]
  rcases ho : (Eval.evaluate n (M.machine.store.load datum).1 i.scope).run
    (M.machine.store.load datum).2 with ⟨v, s⟩ | ⟨e, s⟩ | _ <;> rw [ho] at hp
  · simp only [Eval.render, StoreM.run_find]
    cases s.render? v with
    | none => trivial
    | some shown => exact through hp rfl
  · exact through hp rfl
  · trivial

/-- The answers to a list of texts are found on the way of a session that is given
    these. -/
theorem runAll_leaves_later (n : Nat) {texts : List String}
    {answers : List (Except RunError String)} {s : Store} (hM : M.machine.Ended)
    (h : i.runAll n texts M.machine.store = some (answers, s)) :
    ∃ M', i.Through M texts M' ∧ M'.machine.Ended ∧ M'.machine.store = s := by
  induction texts generalizing M answers with
  | nil => exact ⟨M, .start, hM, by simpa [runAll] using congrArg (Option.map Prod.snd) h⟩
  | cons text texts ih =>
    have hrun := run_leaves_later i n text hM
    have rest : ∀ {t : Store} {answer : Except RunError String},
        (∃ M', i.Through M [text] M' ∧ M'.machine.Ended ∧ M'.machine.store = t) →
        ((i.runAll n texts t).map fun found => (answer :: found.1, found.2)) = some (answers, s) →
          ∃ M', i.Through M (text :: texts) M' ∧ M'.machine.Ended ∧ M'.machine.store = s := by
      rintro _ answer ⟨M₁, h₁, he, rfl⟩ hrest
      obtain ⟨⟨as, s'⟩, has, hs⟩ := Option.map_eq_some_iff.1 hrest
      obtain rfl : s' = s := congrArg Prod.snd hs
      obtain ⟨M₂, h₂, he₂, hs₂⟩ := ih he has
      exact ⟨M₂, h₁.trans h₂, he₂, hs₂⟩
    simp only [runAll] at h
    rcases ho : (i.run n text).run M.machine.store with ⟨output, t⟩ | ⟨e, t⟩ | _ <;>
      rw [ho] at h hrun
    · exact rest hrun h
    · exact rest hrun h
    · cases h

end Interpreter

end SmallScheme
