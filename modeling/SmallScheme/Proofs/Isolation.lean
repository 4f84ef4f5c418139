import SmallScheme.Proofs.Machine.Frames
import SmallScheme.Proofs.Session

/-!
# Frame isolation

An evaluation changes one of the frames there are, that in which it takes place,
and a call of a closure none at all: its definitions and assignments are made in
a frame of its own. Once the call is over, nothing is done in this frame any
more, neither by what is waiting for the call nor by a later text, and it stays
as the call left it (`frames_isolated`).
-/

namespace SmallScheme

namespace Machine

variable {n : Nat} {m m' : Machine} {waiting : List Pending} {f : FrameRef}
  {o : Outcome EvalError Value} {c : ClosureRef} {args : List Value} {s : Store}

theorem Performs.satisfies (h : m.Performs n waiting o) :
    o.Satisfies (fun v t => m.Reaches ⟨.value v, waiting, t⟩)
      fun e t => m.Reaches ⟨.error e, waiting, t⟩ := by
  cases o with
  | value v t => exact h
  | error e t => exact h
  | unfinished => trivial

/-- However the machine gets on, frames in which nothing is being done stay as
    they are. -/
theorem Performs.leaves_frames (h : m.Performs n waiting o) :
    o.Leaves fun t => ∀ f, m.Spares f → t.frame f = m.store.frame f :=
  h.satisfies.imp (fun _ _ h _ hf => (hf.reaches h).2) fun _ _ h _ hf => (hf.reaches h).2

/-- A call with as many arguments as there are parameters has made a frame by the
    time at which it is over. -/
theorem Reaches.called {control : Control} {t : Store}
    (h : Reaches ⟨.apply (.closure c) args, waiting, s⟩ ⟨control, waiting, t⟩)
    (hcontrol : control ≠ .apply (.closure c) args)
    (hargs : (s.closure c).params.length = args.length) :
    s.frames.size < t.frames.size ∧
      (t.frame ⟨s.frames.size⟩).outer = some (s.closure c).scope := by
  rcases Relation.ReflTransGen.cases_head h with heq | ⟨m₁, hstep, hrest⟩
  · exact absurd (congrArg Machine.control heq).symm hcontrol
  -- The first step makes the frame.
  have hstore : m₁.store = (s.newFrame (some (s.closure c).scope)).2.bind ⟨s.frames.size⟩
      ((s.closure c).params.zip args) := by
    obtain rfl := Option.some.inj hstep
    simp only [follow, Move.apply, StoreM.run_bind, StoreM.run_read, if_pos hargs]
    rfl
  have hlt : s.frames.size < m₁.store.frames.size := by
    rw [hstore, Store.size_frames_bind, Store.size_frames_newFrame]
    exact Nat.lt_succ_self _
  have houter : (m₁.store.frame ⟨s.frames.size⟩).outer = some (s.closure c).scope := by
    rw [hstore, Store.outer_frame_bind]
    exact congrArg Frame.outer Store.frame_newFrame_self
  obtain ⟨hlt', houter'⟩ := Reaches.outer_eq hrest hlt
  exact ⟨hlt', houter'.trans houter⟩

end Machine

namespace Interpreter

variable {i : Interpreter} {M M' : Moment} {f : FrameRef} {s : Store}

/-- A frame in which nothing is being done, other than the global one, stays as
    it is for the rest of the session. -/
theorem Later.spares (h : i.Later M M') (hf : M.machine.Spares f) (hi : f ≠ i.scope) :
    M'.machine.Spares f ∧ M'.machine.store.frame f = M.machine.store.frame f := by
  induction h with
  | refl => exact ⟨hf, rfl⟩
  | @tail N _ _ hnext ih =>
    obtain ⟨hspares, heq⟩ := ih
    cases hnext with
    | step hstep =>
      obtain ⟨hspares', heq'⟩ := hspares.step hstep
      exact ⟨hspares', heq'.trans heq⟩
    | @enter _ _ datum =>
      -- What is entered next is evaluated in the global frame.
      have hframes : (N.machine.store.load datum).2.frames = _ := Store.frames_load datum
      refine ⟨⟨?_, fun hmem => hi (List.mem_singleton.1 hmem)⟩, ?_⟩
      · exact Nat.lt_of_lt_of_eq hspares.lt (congrArg Array.size hframes.symm)
      · exact (Store.frame_congr hframes f).trans heq

/-- At every moment of a session, all that is being done is done in frames that
    are there. -/
theorem Passes.framed (h : Passes s M) :
    M.machine.Framed ∧ (new s).1.scope.index < M.machine.store.frames.size := by
  induction h with
  | refl => exact ⟨nofun, Nat.lt_of_lt_of_eq (Nat.lt_succ_self _) Store.size_frames_newFrame.symm⟩
  | @tail N _ _ hnext ih =>
    obtain ⟨hframed, hscope⟩ := ih
    cases hnext with
    | step hstep =>
      refine ⟨hframed.step hstep, Nat.lt_of_lt_of_le hscope ?_⟩
      exact (Machine.frameEffect_step hstep).size_le
    | @enter _ _ datum =>
      have hscope' := Nat.lt_of_lt_of_eq hscope
        (congrArg Array.size (Store.frames_load (s := N.machine.store) datum).symm)
      exact ⟨fun f hf => List.mem_singleton.1 hf ▸ hscope', hscope'⟩

/-- The moment at which the call that is made at `M` is over, with the value or
    the error `control`, in the store `t`. -/
def returned (M : Moment) (control : Control) (t : Store) : Moment :=
  ⟨M.entered, ⟨control, M.machine.pending, t⟩⟩

/-- The session goes on from `M` to the moment at which the call made there is
    over, and from then on leaves all frames alone that have been made since. -/
structure Settles (i : Interpreter) (M : Moment) (control : Control) (t : Store) : Prop where
  later : i.Later M (returned M control t)
  frame_eq : ∀ M', i.Later (returned M control t) M' → ∀ f,
    M.machine.store.frames.size ≤ f.index → f.index < t.frames.size →
      M'.machine.store.frame f = t.frame f

theorem settles {control : Control} {t : Store} (hframed : M.machine.Framed)
    (hscope : i.scope.index < M.machine.store.frames.size) (hcontrol : control.scopes = [])
    (h : M.machine.Reaches ⟨control, M.machine.pending, t⟩) : i.Settles M control t := by
  refine ⟨Later.of_reaches h, fun M' hlater f hge hlt => ?_⟩
  -- What waits was begun before the frame was made.
  have hspares : (returned M control t).machine.Spares f := by
    refine ⟨hlt, fun hmem => Nat.not_lt.2 hge (hframed f ?_)⟩
    rw [Machine.scopes, returned, hcontrol] at hmem
    exact List.mem_append_right _ hmem
  refine (Later.spares hlater hspares ?_).2
  rintro rfl
  exact Nat.not_lt.2 hge hscope

end Interpreter

/-- Evaluation in a scope leaves all other frames exactly as they were, and the
    call of a closure leaves all frames so, whether they end with a value or with
    an error. A call of as many arguments as there are parameters makes a frame
    within that of the closure; and in a session, this frame and all others made
    during the call are never changed after it. -/
theorem frames_isolated (n : Nat) :
    (∀ v scope s, ((Eval.evaluate n v scope).run s).Leaves fun t =>
      ∀ f, f.index < s.frames.size → f ≠ scope → t.frame f = s.frame f) ∧
    (∀ c args s, ((Eval.call (Eval.evaluate n) c args).run s).Leaves fun t =>
      (∀ f, f.index < s.frames.size → t.frame f = s.frame f) ∧
      ((s.closure c).params.length = args.length → s.frames.size < t.frames.size ∧
        (t.frame ⟨s.frames.size⟩).outer = some (s.closure c).scope)) ∧
    ∀ s M c args, Interpreter.Passes s M → M.machine.control = .apply (.closure c) args →
      ((Eval.call (Eval.evaluate n) c args).run M.machine.store).Satisfies
        (fun v t => (Interpreter.new s).1.Settles M (.value v) t)
        fun e t => (Interpreter.new s).1.Settles M (.error e) t := by
  refine ⟨fun v scope s => ?_, fun c args s => ?_, fun s M c args hM hcontrol => ?_⟩
  · refine (Machine.performs_evaluate n v scope [] s).leaves_frames.imp ?_ ?_
    all_goals exact fun _ t h f hf hne => h f ⟨hf, fun hmem => hne (List.mem_singleton.1 hmem)⟩
  · have hp := Machine.performs_call n c args [] s
    have hframes : ∀ {t : Store}, (∀ f, Machine.Spares ⟨.apply (.closure c) args, [], s⟩ f →
        t.frame f = s.frame f) → ∀ f, f.index < s.frames.size → t.frame f = s.frame f :=
      fun h f hf => h f ⟨hf, List.not_mem_nil⟩
    generalize (Eval.call (Eval.evaluate n) c args).run s = o at hp ⊢
    cases o with
    | value v t => exact ⟨hframes hp.leaves_frames, Machine.Reaches.called hp nofun⟩
    | error e t => exact ⟨hframes hp.leaves_frames, Machine.Reaches.called hp nofun⟩
    | unfinished => trivial
  · obtain ⟨hframed, hscope⟩ := hM.framed
    have hp := Machine.performs_call n c args M.machine.pending M.machine.store
    rw [← hcontrol] at hp
    exact hp.satisfies.imp (fun v t h => Interpreter.settles hframed hscope rfl h)
      fun e t h => Interpreter.settles hframed hscope rfl h

/-- The call in `((lambda (x) (define y x)) 7)` leaves the global frame alone and
    makes one with two bindings, which is never changed again. -/
theorem frames_isolated_inline_call :
    ∃ M t, Interpreter.Passes .empty M ∧
      M.machine.control = .apply (.closure ⟨0⟩) [.integer ⟨7, by decide⟩] ∧
      (Eval.call (Eval.evaluate 2) ⟨0⟩ [.integer ⟨7, by decide⟩]).run M.machine.store =
        .value (.symbol "y") t ∧
      t.frame ⟨1⟩ = ⟨some ⟨0⟩, [("x", .integer ⟨7, by decide⟩), ("y", .integer ⟨7, by decide⟩)]⟩ ∧
      t.frame ⟨0⟩ = M.machine.store.frame ⟨0⟩ ∧
      (Interpreter.new .empty).1.Settles M (.value (.symbol "y")) t := by
  have hread : readExpression "((lambda (x) (define y x)) 7)" = .ok
      (.pair (.pair (.symbol "lambda") (.pair (.pair (.symbol "x") .nil)
        (.pair (.pair (.symbol "define") (.pair (.symbol "y") (.pair (.symbol "x") .nil))) .nil)))
        (.pair (.integer ⟨7, by decide⟩) .nil)) := by cbv
  have henter := Interpreter.Next.enter (i := (Interpreter.new .empty).1)
    (M := .start (Interpreter.new .empty).2) rfl hread
  have hM := (((Relation.ReflTransGen.single henter).tail (.step rfl)).tail (.step rfl)).tail
    (.step rfl)
  have h := (frames_isolated 2).2.2 .empty _ ⟨0⟩ [.integer ⟨7, by decide⟩] hM rfl
  exact ⟨_, _, hM, rfl, rfl, rfl, rfl, h⟩

end SmallScheme
