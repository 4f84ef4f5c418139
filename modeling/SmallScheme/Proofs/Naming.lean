import SmallScheme.Proofs.Hiding.World
import SmallScheme.Proofs.Naming.Calls

/-!
# Calling a procedure inline and by name

A `lambda` form can be called where it stands, or be given a name by a definition and
then be called by that name. If the name occurs neither in the forms nor in what
the interpreter has got hold of so far, it makes no difference which
(`inline_agrees_with_named`): both fail with the same error, or both have the same value
up to the numbers of what was made on the way, and afterwards all other names are
bound to the same.

Three things tell the two ways apart. The named call makes some pairs more, and it reads the
operands only after the closure has been made: this changes numbers, and numbers
do not matter (`World.exists_grown`). And it leaves a binding behind, which nobody
looks up (`Eval.hides_evaluate`).
-/

namespace SmallScheme

open StoreM

/-! ## The same but for a name -/

/-- Two stores that have come of `s` differ in the bindings of `name`, in the numbers of
    what has been made since, and in nothing else that can be reached from `scope`. -/
structure Renaming.Agrees (ρ : Renaming) (name : String) (scope : FrameRef) (s t u : Store) :
    Prop where
  /-- No place stands for two others. -/
  unique : ∀ {p q p' q' : Place}, ρ p q → ρ p' q' → (p = p' ↔ q = q')
  /-- What was there in `s` stands for nothing but itself. -/
  old : ∀ p q, ρ p q → s.Has p ∨ s.Has q → p = q
  /-- What could be reached does so. -/
  kept : ∀ p, s.Reachable (· = .frame scope) p → ρ p p
  /-- The same is kept at places that stand for each other, but for the name. -/
  alike : ∀ p q, ρ p q → ρ.OnCell ((t.cell p).without name) ((u.cell q).without name)
  /-- All other names are bound to the same. -/
  bound : ∀ other, other ≠ name → Option.Rel ρ.OnValue
    ((t.frame scope).bindings.lookup other) ((u.frame scope).bindings.lookup other)

/-- Two computations that began in `s` end alike: with the same error, or with results that
    stand for each other, and in stores that agree but for the name. -/
inductive Outcome.AgreesBut (name : String) (scope : FrameRef) (s : Store) :
    Outcome EvalError Value → Outcome EvalError Value → Prop
  | value {ρ : Renaming} {v w : Value} {t u : Store} (h : ρ.Agrees name scope s t u)
      (hv : ρ.OnValue v w) : AgreesBut name scope s (.value v t) (.value w u)
  | error {ρ : Renaming} {t u : Store} (e : EvalError) (h : ρ.Agrees name scope s t u) :
      AgreesBut name scope s (.error e t) (.error e u)
  | unfinished : AgreesBut name scope s .unfinished .unfinished

namespace World

open Eval

variable {W W' : World} {name : String} {scope : FrameRef} {s t u : Store}

/-- The world in which whatever can be reached from a frame stands for itself. -/
structure Origin (W : World) (scope : FrameRef) (s : Store) : Prop where
  left : W.left = s
  right : W.right = s
  rel_iff : ∀ p q, W.rel p q ↔ s.Reachable (· = .frame scope) p ∧ p = q

theorem Origin.rel_scope (h : W.Origin scope s) : W.rel (.frame scope) (.frame scope) :=
  (h.rel_iff _ _).2 ⟨.root rfl, rfl⟩

/-- Stores that the two sides of a world have come to agree, if it is so without the
    name. -/
theorem Origin.agrees (h : W.Origin scope s) (hW : W.Leads W') (ht : W'.left = t.without name)
    (hu : W'.right = u.without name) : W'.rel.Agrees name scope s t u where
  unique := W'.unique
  old _ _ hpq hhas := hW.eq_of_has (fun p q hpq => ((h.rel_iff p q).1 hpq).2) hpq
    (by rwa [h.left, h.right])
  kept p hp := hW.le _ _ ((h.rel_iff p p).2 ⟨hp, rfl⟩)
  alike p q hpq := by
    have halike := W'.alike hpq
    rwa [ht, hu, Store.cell_without, Store.cell_without] at halike
  bound other hother := by
    have hbindings := (onFrame (hW.le _ _ h.rel_scope)).bindings
    rw [ht, hu, Store.frame_without, Store.frame_without] at hbindings
    have hlookup := Renaming.lookup_onEntries hbindings other
    rwa [Frame.without, Frame.without, Bindings.lookup_without hother,
      Bindings.lookup_without hother] at hlookup

/-- Computations that do not use the name agree if they do the same without it. -/
theorem Origin.agreesBut {W₁ : World} (h : W.Origin scope s) (hW : W.Leads W₁)
    {live live' : Place → Prop} {P P' : Value → Prop} {o o' o₁ o₁' : Outcome EvalError Value}
    (ho : o.Hidden name live P o₁) (ho' : o'.Hidden name live' P' o₁')
    (hends : W₁.Ends (fun W => W.rel.OnValue) o₁ o₁') : o.AgreesBut name scope s o' := by
  cases hends with
  | value h₁ hv =>
    obtain ⟨t, rfl, ht⟩ := ho.exists_value
    obtain ⟨u, rfl, hu⟩ := ho'.exists_value
    exact .value (h.agrees (hW.trans h₁.leads) ht hu) hv
  | error e h₁ =>
    obtain ⟨t, rfl, ht⟩ := ho.exists_error
    obtain ⟨u, rfl, hu⟩ := ho'.exists_error
    exact .error e (h.agrees (hW.trans h₁.leads) ht hu)
  | unfinished =>
    rw [ho.eq_unfinished, ho'.eq_unfinished]
    exact .unfinished

/-- A call on both sides, where the closure is bound to the name on one of them. -/
theorem Origin.agreesBut_callOn {W₁ : World} (h : W.Origin ⟨0⟩ s) (hW : W.Leads W₁)
    (hclean : W₁.Clean name) (hname : (Value.symbol name).isBoolean = false) (n : Nat)
    {v w : Value} (hv : W₁.rel.OnValue v w) (hvname : v ≠ .symbol name) {c d : ClosureRef}
    (hc : W₁.rel (.closure c) (.closure d)) :
    ((callOn (evaluate n) v ⟨0⟩ c).run W₁.left).AgreesBut name ⟨0⟩ s
      ((callOn (evaluate n) w ⟨0⟩ d).run (W₁.right.define ⟨0⟩ name (.closure d))) := by
  have hscope : W₁.rel (.frame ⟨0⟩) (.frame ⟨0⟩) := hW.le _ _ h.rel_scope
  have hvlive : v.Avoids name fun p => (∃ q, W₁.rel p q) ∨ ¬W₁.left.Has p :=
    ⟨hvname, fun p hp => .inl (hv.exists_rel hp)⟩
  have hwlive : w.Avoids name fun q => (∃ p, W₁.rel p q) ∨ ¬W₁.right.Has q :=
    ⟨mt (hv.eq_symbol_iff name).2 hvname, fun q hq => .inl (hv.flip.exists_rel hq)⟩
  have hleft := hides_callOn hname n hvlive (.inl ⟨_, hscope⟩) (.inl ⟨_, hc⟩) _
    (hclean.omits.avoids_left hscope)
  have hright := hides_callOn hname n hwlive (.inl ⟨_, hscope⟩) (.inl ⟨_, hc⟩) _
    ((hclean.omits.avoids_right hscope).define (.inl ⟨_, hscope⟩) name
      (Value.avoids_closure_iff.2 (.inl ⟨_, hc⟩)))
  -- Without the name, the definition does not show.
  rw [Store.without_define_self] at hright
  exact h.agreesBut (hW.trans (W₁.leads_without name)) hleft hright
    (simulates_callOn (W := W₁.without name) n hv hscope hc)

/-- What a `lambda` form describes is the same on both sides, or there is the same error;
    and to find out changes nothing. -/
theorem Clean.lambdaClosure (h : W.Clean name) (hscope : W.rel (.frame ⟨0⟩) (.frame ⟨0⟩))
    {v w : Value} (hv : W.rel.OnValue v w) (hvname : v ≠ .symbol name) :
    (∃ c d, (lambdaClosure v ⟨0⟩).run W.left = .value c W.left ∧
      (lambdaClosure w ⟨0⟩).run W.right = .value d W.right ∧ W.rel.OnClosure c d ∧
      (Cell.closure c).Omits name) ∨
    (∃ e, (lambdaClosure v ⟨0⟩).run W.left = .error e W.left ∧
      (lambdaClosure w ⟨0⟩).run W.right = .error e W.right) ∨
    ((lambdaClosure v ⟨0⟩).run W.left = .unfinished ∧
      (lambdaClosure w ⟨0⟩).run W.right = .unfinished) := by
  have hsim := simulates_lambdaClosure hv hscope
  have hleft := lambdaClosure_satisfies (s := W.left) v ⟨0⟩
  have hright := lambdaClosure_satisfies (s := W.right) w ⟨0⟩
  have havoids : v.Avoids name fun p => (∃ q, W.rel p q) ∨ ¬W.left.Has p :=
    ⟨hvname, fun p hp => .inl (hv.exists_rel hp)⟩
  have hhidden := hides_lambdaClosure havoids (.inl ⟨_, hscope⟩) _ (h.omits.avoids_left hscope)
  rw [Simulates] at hsim
  generalize (Eval.lambdaClosure v ⟨0⟩).run (W.left.without name) = o₁ at hhidden
  generalize (Eval.lambdaClosure v ⟨0⟩).run W.left = o at hsim hleft hhidden
  generalize (Eval.lambdaClosure w ⟨0⟩).run W.right = o' at hsim hright
  cases hsim with
  | @value W' c d hW hcd =>
    have hl : W'.left = W.left := hleft
    have hr : W'.right = W.right := hright
    refine .inl ⟨c, d, by rw [hl], by rw [hr], ?_, ?_⟩
    · -- Nothing is new, so nothing has come to stand for anything.
      have hle : W'.rel ≤ W.rel := fun p q hpq => (hW.new p q hpq).resolve_right fun hnew =>
        hnew.1.1 (hl ▸ hnew.1.2)
      exact ⟨hcd.params, Renaming.onValues_mono hle hcd.body, hle _ _ hcd.scope⟩
    · cases hhidden with
      | value _ hc => exact hc.1
  | @error W' e hW =>
    have hl : W'.left = W.left := hleft
    have hr : W'.right = W.right := hright
    exact .inr (.inl ⟨e, by rw [hl], by rw [hr]⟩)
  | unfinished => exact .inr (.inr ⟨rfl, rfl⟩)

/-- A closure made on both sides and called: on the left when the operands have been read,
    on the right before that, bound to the name. -/
theorem Origin.agreesBut_called {W₁ : World} (h : W.Origin ⟨0⟩ s) (hW : W.Leads W₁)
    (hclean : W₁.Clean name) (hname : (Value.symbol name).isBoolean = false) (n : Nat)
    {c d : Closure} (hcd : W₁.rel.OnClosure c d) (hc : (Cell.closure c).Omits name)
    {operands : Datum} (hoperands : name ∉ operands.symbols) (head head' : Value)
    (hu : u = (W₁.right.newClosure d).2.define ⟨0⟩ name (.closure ⟨W₁.right.closures.size⟩)) :
    ((create (fun s => s.newClosure c) >>=
      callOn (evaluate n) (W₁.left.load operands).1 ⟨0⟩).run
        ((W₁.left.load operands).2.cons head (W₁.left.load operands).1).2).AgreesBut name ⟨0⟩ s
      ((callOn (evaluate n) (u.load operands).1 ⟨0⟩ ⟨W₁.right.closures.size⟩).run
        ((u.load operands).2.cons head' (u.load operands).1).2) := by
  obtain ⟨W₂, hleft₂, hright₂, hW₂, hclean₂, hcrel⟩ := hclean.newClosure hcd hc
  obtain ⟨W₃, hleft₃, hright₃, hW₃, hclean₃, hv⟩ := hclean₂.load hoperands
  rw [hleft₂, Store.load_newClosure] at hleft₃ hv
  rw [hright₂, Store.load_newClosure] at hright₃ hv
  obtain ⟨W₄, hleft₄, hright₄, hrel, hW₄, hclean₄⟩ := hclean₃.grow
    (Store.grows_cons head (W₁.left.load operands).1)
    (Store.grows_cons head' (W₁.right.load operands).1)
  rw [← hrel] at hv
  have hcall := h.agreesBut_callOn (hW.trans (hW₂.trans (hW₃.trans hW₄))) hclean₄ hname n hv
    (Store.load_ne_symbol hoperands) (hW₄.le _ _ (hW₃.le _ _ hcrel))
  rw [hleft₄, hright₄, hleft₃, hright₃, ← Store.closures_load operands] at hcall
  rw [hu, Store.load_define, Store.load_newClosure]
  exact hcall

end World

/-! ## Agreement -/

namespace World

open Eval

variable {name : String} {s : Store}

/-- Where a `lambda` form stands for itself, so does what comes after `lambda`. -/
theorem onValue_parts {W : World} {parts : List Datum}
    (hleft : W.left = (s.load (.lambda parts)).2) (hright : W.right = (s.load (.lambda parts)).2)
    (h : W.rel.OnValue (s.load (.lambda parts)).1 (s.load (.lambda parts)).1) :
    W.rel.OnValue (s.load (.chain parts .nil)).1 (s.load (.chain parts .nil)).1 := by
  have hform : (s.load (.lambda parts)).2.pair ⟨(s.load (.chain parts .nil)).2.pairs.size⟩ =
      ⟨.symbol SpecialForm.lambda.name, (s.load (.chain parts .nil)).1⟩ := Store.pair_cons_self
  have hpair : W.rel.OnValue (.pair ⟨(s.load (.chain parts .nil)).2.pairs.size⟩)
      (.pair ⟨(s.load (.chain parts .nil)).2.pairs.size⟩) := h
  cases hpair with
  | pair hpair =>
    have hcdr := (onPair hpair).cdr
    rwa [hleft, hright, hform] at hcdr

/-- Every session starts from a world in which what it has got hold of stands for itself. -/
theorem exists_origin {k : Nat} {texts : List String} {answers : List (Except RunError String)}
    (hs : Interpreter.alone.runAll k texts Interpreter.aloneStore = some (answers, s))
    (homits : ∀ p, s.Reachable (· = .frame ⟨0⟩) p → (s.cell p).Omits name) :
    ∃ W : World, W.Origin ⟨0⟩ s ∧ W.Clean name := by
  obtain ⟨W, hleft, hright, hrel, hsettled⟩ := exists_settled (Interpreter.sound_of_runAll hs)
  exact ⟨W, ⟨hleft, hright, hrel⟩, hsettled, fun p q hpq => hleft ▸ homits p ((hrel p q).1 hpq).1⟩

end World

open Interpreter in
/-- A call of a `lambda` form where it stands, and a definition of a name by it with a call
    by that name, come to the same end from any state of a session, if the name is none
    with a meaning of its own and occurs neither in the forms nor in what the session has
    got hold of. -/
theorem inline_agrees_with_named {k : Nat} {texts : List String}
    {answers : List (Except RunError String)} {s : Store}
    (hs : alone.runAll k texts aloneStore = some (answers, s)) {name : String}
    (hoperator : Operator.named? name = none) (htrue : name ≠ "#t") (hfalse : name ≠ "#f")
    {parts operands : List Datum} (hparts : ∀ d ∈ parts, name ∉ d.symbols)
    (hoperands : ∀ d ∈ operands, name ∉ d.symbols)
    (hstate : ∀ p, s.Reachable (· = .frame alone.scope) p → (s.cell p).Omits name) (n : Nat) :
    ((alone.evaluate (n + 2) (.form (.lambda parts) operands)).run s).AgreesBut name alone.scope s
      ((alone.evaluate (n + 2) (.definition name (.lambda parts)) >>= fun _ =>
        alone.evaluate (n + 2) (.form (.symbol name) operands)).run s) := by
  have hname : (Value.symbol name).isBoolean = false := by
    simp [Value.isBoolean, Value.ofBool, htrue, hfalse]
  have hlambda : name ∉ (Datum.lambda parts).symbols := fun hmem =>
    (List.mem_cons.1 hmem).elim (fun heq => absurd (heq ▸ hoperator) (by decide))
      (Datum.not_mem_symbols_chain hparts)
  obtain ⟨W₀, h₀, hclean₀⟩ := World.exists_origin hs hstate
  -- The `lambda` form is read on both sides.
  obtain ⟨W₁, hleft₁, hright₁, h₁, hclean₁, hv⟩ := hclean₀.load hlambda
  rw [h₀.left] at hleft₁ hv
  rw [h₀.right] at hright₁ hv
  have hgrows : W₁.left.Grows (s.load (.form (.lambda parts) operands)).2 :=
    hleft₁ ▸ grows_load_form operands s _
  have hgrows' : W₁.right.Grows (s.load (.definition name (.lambda parts))).2 :=
    hright₁ ▸ grows_load_definition name s _
  have hrest := World.onValue_parts hleft₁ hright₁ hv
  -- To find out what it describes changes nothing.
  obtain ⟨W₂, hleft₂, hright₂, hrel₂, h₂, hclean₂⟩ := hclean₁.grow hgrows hgrows'
  have hscope₂ : W₂.rel (.frame ⟨0⟩) (.frame ⟨0⟩) := h₂.le _ _ (h₁.le _ _ h₀.rel_scope)
  have hends := hclean₂.lambdaClosure hscope₂ (hrel₂ ▸ hrest)
    (Store.load_ne_symbol (Datum.not_mem_symbols_chain hparts))
  rw [hleft₂, hright₂] at hends
  rw [run_bind, run_inline, run_definition, run_bind, run_bind]
  obtain ⟨c, d, hc, hd, hcd, homits⟩ | ⟨e, hc, hd⟩ | ⟨hc, hd⟩ := hends
  · obtain ⟨W₃, hleft₃, hright₃, hrel₃, h₃, hclean₃⟩ := hclean₁.grow (.refl _) hgrows'
    have hscope₃ := (hclean₃.inside _ _ (h₃.le _ _ (h₁.le _ _ h₀.rel_scope))).2
    -- The store in which the name is bound to the closure.
    obtain ⟨u, hu⟩ : ∃ u, u = (W₃.right.newClosure d).2.define ⟨0⟩ name
      (.closure ⟨W₃.right.closures.size⟩) := ⟨_, rfl⟩
    have hcalled := h₀.agreesBut_called (h₁.trans h₃) hclean₃ hname (n + 1)
      (hrel₃ ▸ hrel₂ ▸ hcd) homits (Datum.not_mem_symbols_chain hoperands)
      (s.load (.lambda parts)).1 (.symbol name) hu
    have hbound := hu ▸ Store.lookup_define_self ((Store.adds_newClosure d).grows.has hscope₃)
    have hnamed := run_named alone (n + 1) operands name u hoperator hbound
    rw [hleft₃, hleft₁] at hcalled
    rw [hright₃] at hu
    subst hu
    rw [show alone.scope = ⟨0⟩ from rfl, hc, hd]
    exact (congrArg (Outcome.AgreesBut name ⟨0⟩ s _) hnamed).mpr hcalled
  · rw [show alone.scope = ⟨0⟩ from rfl, hc, hd]
    have hagrees : (W₂.without name).rel.Agrees name ⟨0⟩ s _ _ :=
      h₀.agrees (h₁.trans (h₂.trans (W₂.leads_without name)))
        (congrArg (Store.without · name) hleft₂) (congrArg (Store.without · name) hright₂)
    exact .error e hagrees
  · rw [show alone.scope = ⟨0⟩ from rfl, hc, hd]
    exact .unfinished

/-- The store of a session in which `x` has been bound to the list `(1)`. -/
def listStore : Store where
  pairs := #[⟨.integer .one, .nil⟩, ⟨.pair ⟨0⟩, .nil⟩, ⟨.symbol "quote", .pair ⟨1⟩⟩,
    ⟨.pair ⟨2⟩, .nil⟩, ⟨.symbol "x", .pair ⟨3⟩⟩, ⟨.symbol "define", .pair ⟨4⟩⟩]
  closures := #[]
  frames := #[⟨none, [("x", .pair ⟨0⟩)]⟩]

theorem mem_of_reachable_listStore {p : Place}
    (h : listStore.Reachable (· = .frame Interpreter.alone.scope) p) :
    p ∈ [Place.frame ⟨0⟩, .pair ⟨0⟩] := by
  induction h with
  | root hp =>
    cases hp
    decide
  | step _ hq ih =>
    simp only [List.mem_cons, List.not_mem_nil, or_false] at ih
    rcases ih with rfl | rfl
    · obtain ⟨entry, hentry, hq⟩ | ⟨g, hg, rfl⟩ := hq
      · obtain rfl := List.mem_singleton.1 hentry
        cases hq
        decide
      · cases hg
    · obtain hq | hq := hq <;> cases hq

/-- The parts of `(lambda (y) (cons y x))`. -/
def consParts : List Datum :=
  [.form (.symbol "y") [], .form (.symbol "cons") [.symbol "y", .symbol "x"]]

/-- The operand `2`. -/
def twoOperand : List Datum := [.integer ⟨2, by decide⟩]

open Interpreter in
/-- After `(define x (quote (1)))`, the call `((lambda (y) (cons y x)) 2)` gives the list
    `(2 1)`, and so it does with `(define f (lambda (y) (cons y x)))` and `(f 2)`; only in the
    second case `f` is bound afterwards. -/
theorem inline_agrees_with_named_list :
    ∃ t u v w, alone.runAll 2 ["(define x (quote (1)))"] aloneStore = some ([.ok "x"], listStore) ∧
      (∀ p, listStore.Reachable (· = .frame alone.scope) p → (listStore.cell p).Omits "f") ∧
      (alone.evaluate 3 (.form (.lambda consParts) twoOperand)).run listStore = .value v t ∧
      (alone.evaluate 3 (.definition "f" (.lambda consParts)) >>= fun _ =>
        alone.evaluate 3 (.form (.symbol "f") twoOperand)).run listStore = .value w u ∧
      (Outcome.value v t).AgreesBut "f" alone.scope listStore (.value w u) ∧
      t.render? v = some "(2 1)" ∧ u.render? w = some "(2 1)" ∧
      t.lookup? alone.scope "f" = none ∧ u.lookup? alone.scope "f" = some (.closure ⟨0⟩) := by
  have hread : readExpression "(define x (quote (1)))" = .ok (.definition "x"
      (.form (.symbol "quote") [.form (.integer .one) []])) := by cbv
  have hs : alone.runAll 2 ["(define x (quote (1)))"] aloneStore =
      some ([.ok "x"], listStore) := by
    simp only [runAll, run_eq, hread]
    rfl
  have homits : ∀ p, listStore.Reachable (· = .frame alone.scope) p →
      (listStore.cell p).Omits "f" := fun p hp => by
    have hmem := mem_of_reachable_listStore hp
    simp only [List.mem_cons, List.not_mem_nil, or_false] at hmem
    rcases hmem with rfl | rfl
    · exact List.forall_mem_singleton.2 Value.noConfusion
    · exact ⟨Value.noConfusion, Value.noConfusion⟩
  obtain ⟨v, t, hinline, hv, ht⟩ : ∃ v t,
      (alone.evaluate 3 (.form (.lambda consParts) twoOperand)).run listStore = .value v t ∧
      t.render? v = some "(2 1)" ∧ t.lookup? alone.scope "f" = none :=
    ⟨_, _, by cbv, by cbv, by cbv⟩
  obtain ⟨w, u, hnamed, hw, hu⟩ : ∃ w u,
      (alone.evaluate 3 (.definition "f" (.lambda consParts)) >>= fun _ =>
        alone.evaluate 3 (.form (.symbol "f") twoOperand)).run listStore = .value w u ∧
      u.render? w = some "(2 1)" ∧ u.lookup? alone.scope "f" = some (.closure ⟨0⟩) :=
    ⟨_, _, by cbv, by cbv, by cbv⟩
  have hagrees : Outcome.AgreesBut "f" alone.scope listStore
      ((alone.evaluate 3 (.form (.lambda consParts) twoOperand)).run listStore)
      ((alone.evaluate 3 (.definition "f" (.lambda consParts)) >>= fun _ =>
        alone.evaluate 3 (.form (.symbol "f") twoOperand)).run listStore) :=
    inline_agrees_with_named hs (by decide) (by decide) (by decide) (by decide) (by decide) homits 1
  rw [hinline, hnamed] at hagrees
  exact ⟨t, u, v, w, hs, homits, hinline, hnamed, hagrees, hv, hw, ht, hu⟩

end SmallScheme
