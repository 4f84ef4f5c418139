import SmallScheme.Eval.Operator
import SmallScheme.Proofs.Store.Chain
import SmallScheme.Proofs.Store.Reach
import SmallScheme.Proofs.Store.Update
import SmallScheme.Store.Scope

/-!
# Layouts: program text and data in one store

The pairs of a store hold program text as well as the lists that programs make.
What a pair is for is its *role*: it is an expression, or belongs to the operands
of a form, which are a list of expressions, or to those of a quotation, which are
a list of data, or it is data itself. A *layout* gives each pair a role. A store
is laid out by it (`Layout.Fits`) if the components of every pair have the roles
that the pair's own one asks for, if all that names are bound to is data, and the
bodies of closures are expressions; and if the pairs of a list of operands lie at
ever smaller places, as those of a list just read do.

* `reaches`: from data only data can be reached;
* `of_inText`: what is part of an expression has a role other than that of data;
* `isSome_elements?`: lists of operands have an end.

Each change that a program can make of a store keeps it laid out, in the same
way (`define`, `bind`, `newClosure`, `cons`, `list`, `setCar`, `setCdr`), and so
does storing a new expression, once the layout is extended to it (`load`).
-/

namespace SmallScheme

/-- What a value is for. -/
inductive Role where
  /-- An expression, to be evaluated. -/
  | form
  /-- The operands of a form, or what is left of them. -/
  | operands
  /-- The operands of a quotation, or what is left of them. -/
  | quotation
  /-- Data. -/
  | datum
deriving DecidableEq

namespace Role

/-- The role of the first component of a pair. -/
def car : Role → Role
  | form | operands => form
  | quotation | datum => datum

/-- The role of the second component of a pair with the first one given. -/
def cdr : Role → Value → Role
  | form, head => if head = .symbol SpecialForm.quote.name then quotation else operands
  | operands, _ => operands
  | quotation, _ => quotation
  | datum, _ => datum

theorem cdr_ne_datum {p : Role} (hp : p ≠ .datum) (head : Value) : p.cdr head ≠ .datum := by
  cases p with
  | form =>
    rw [cdr]
    split <;> simp
  | operands | quotation => exact hp
  | datum => exact absurd rfl hp

end Role

/-- The pair `q` is part of the program text that `v` is in the given role, and not
    inside of what is quoted there. -/
inductive Store.InText (s : Store) : Role → Value → PairRef → Prop
  | self {p : Role} {r : PairRef} : p ≠ .datum → InText s p (.pair r) r
  | car {p : Role} {r q : PairRef} : InText s p.car (s.pair r).car q → InText s p (.pair r) q
  | cdr {p : Role} {r q : PairRef} : InText s (p.cdr (s.pair r).car) (s.pair r).cdr q →
      InText s p (.pair r) q

/-- A role for each place at which there may be a pair. -/
abbrev Layout := PairRef → Role

namespace Layout

variable {σ σ' : Layout} {s t : Store} {p : Role} {v w : Value} {r : PairRef}

/-- The value is no pair, or one that is there and has the role `p`. -/
def At (σ : Layout) (s : Store) (p : Role) (v : Value) : Prop :=
  ∀ r, v = .pair r → r.index < s.pairs.size ∧ σ r = p

/-- The store is laid out by `σ`. -/
structure Fits (σ : Layout) (s : Store) : Prop where
  /-- Where there is no pair yet, one made by a program may come to lie. -/
  fresh : ∀ r, s.pairs.size ≤ r.index → σ r = .datum
  car : ∀ r, σ.At s (σ r).car (s.pair r).car
  cdr : ∀ r, σ.At s ((σ r).cdr (s.pair r).car) (s.pair r).cdr
  descends : ∀ r q, σ r ≠ .datum → (s.pair r).cdr = .pair q → q.index < r.index
  body : ∀ c, ∀ form ∈ (s.closure c).body, σ.At s .form form
  binding : ∀ f, ∀ entry ∈ (s.frame f).bindings, σ.At s .datum entry.2

/-- Later on there are the layout `σ'` and the store `t`: roles have been
    given to new pairs only, and program text is what it was. -/
structure Extends (σ : Layout) (s : Store) (σ' : Layout) (t : Store) : Prop where
  size_le : s.pairs.size ≤ t.pairs.size
  layout_eq : ∀ r, r.index < s.pairs.size → σ' r = σ r
  pair_eq : ∀ r, r.index < s.pairs.size → σ r ≠ .datum → t.pair r = s.pair r

theorem Extends.refl (σ : Layout) (s : Store) : σ.Extends s σ s :=
  ⟨Nat.le_refl _, fun _ _ => rfl, fun _ _ _ => rfl⟩

theorem Extends.trans {σ'' : Layout} {u : Store} (h : σ.Extends s σ' t) (h' : σ'.Extends t σ'' u) :
    σ.Extends s σ'' u := by
  refine ⟨Nat.le_trans h.size_le h'.size_le, fun r hr => ?_, fun r hr hcode => ?_⟩
  · exact (h'.layout_eq r (Nat.lt_of_lt_of_le hr h.size_le)).trans (h.layout_eq r hr)
  · have hcode' : σ' r ≠ .datum := by rwa [h.layout_eq r hr]
    exact (h'.pair_eq r (Nat.lt_of_lt_of_le hr h.size_le) hcode').trans (h.pair_eq r hr hcode)

/-! ## Values in a role -/

theorem at_of_ne_pair (h : ∀ r, v ≠ .pair r) : σ.At s p v := fun r hr => absurd hr (h r)

theorem Extends.at (h : σ.Extends s σ' t) (hv : σ.At s p v) : σ'.At t p v := by
  intro r hr
  obtain ⟨hlt, hp⟩ := hv r hr
  exact ⟨Nat.lt_of_lt_of_le hlt h.size_le, (h.layout_eq r hlt).trans hp⟩

theorem at_congr (h : s.pairs.size = t.pairs.size) : σ.At s p v ↔ σ.At t p v := by
  rw [At, At, h]

namespace Fits

variable (h : σ.Fits s)

include h

/-- From data only data can be reached. -/
theorem reaches (hv : σ.At s .datum v) (hw : s.Reaches v w) : σ.At s .datum w := by
  induction hw with
  | refl => exact hv
  | tail _ hlink ih =>
    cases hlink with
    | car r =>
      have hcar := h.car r
      rwa [(ih r rfl).2] at hcar
    | cdr r =>
      have hcdr := h.cdr r
      rwa [(ih r rfl).2] at hcdr

/-- What is part of a program text is there, and is no data. -/
theorem of_inText (hv : σ.At s p v) (hr : s.InText p v r) :
    r.index < s.pairs.size ∧ σ r ≠ .datum := by
  induction hr with
  | self hp =>
    obtain ⟨hlt, rfl⟩ := hv _ rfl
    exact ⟨hlt, hp⟩
  | @car p r _ _ ih =>
    obtain ⟨_, rfl⟩ := hv r rfl
    exact ih (h.car r)
  | @cdr p r _ _ ih =>
    obtain ⟨_, rfl⟩ := hv r rfl
    exact ih (h.cdr r)

/-- A list that is program text has an end. -/
theorem isSome_elements? (hv : σ.At s p v) (hp : p ≠ .datum) : (s.elements? v).isSome := by
  refine Store.isSome_elements? (P := fun r => σ r ≠ .datum) (fun r q hr hq => ?_) fun r hr => ?_
  · have hcdr := (h.cdr r q hq).2
    exact ⟨hcdr ▸ Role.cdr_ne_datum hr _, h.descends r q hr hq⟩
  · obtain ⟨hlt, rfl⟩ := hv r hr
    exact ⟨hp, hlt⟩

/-- The elements of a list all of whose rests have the same role. -/
theorem elements? {items : List Value} {tail : Value} (hv : σ.At s p v)
    (hp : ∀ head, p.cdr head = p) (he : s.elements? v = some (items, tail)) :
    ∀ item ∈ items, σ.At s p.car item := by
  -- The role of a rest of the list is that of the list, at each link.
  refine Store.forall_mem_of_elements? (P := σ.At s p) (fun r hr => ?_) hv he
  obtain ⟨_, rfl⟩ := hr r rfl
  have hcdr := h.cdr r
  rw [hp] at hcdr
  exact ⟨h.car r, hcdr⟩

/-- What a name means is data. -/
theorem lookup? {f : FrameRef} {name : String} (hv : s.lookup? f name = some v) :
    σ.At s .datum v := by
  obtain ⟨g, _, hg⟩ := List.exists_of_findSome?_eq_some hv
  obtain ⟨_, _, heq, _⟩ := List.lookup_eq_some_iff.1 hg
  refine h.binding g (name, v) ?_
  rw [heq]
  exact List.mem_append_right _ List.mem_cons_self

end Fits

/-! ## Changes of the store -/

namespace Fits

variable (h : σ.Fits s)

include h

/-- A change that leaves the pairs alone, and adds to bindings only data and to
    closures only expressions. -/
theorem of_pairs_eq (hpairs : t.pairs = s.pairs)
    (hbody : ∀ c, ∀ form ∈ (t.closure c).body, σ.At s .form form)
    (hbinding : ∀ f, ∀ entry ∈ (t.frame f).bindings, σ.At s .datum entry.2) : σ.Fits t where
  fresh r hr := h.fresh r (hpairs ▸ hr)
  car r := by
    rw [Store.pair_congr hpairs]
    exact (at_congr (congrArg _ hpairs)).2 (h.car r)
  cdr r := by
    rw [Store.pair_congr hpairs]
    exact (at_congr (congrArg _ hpairs)).2 (h.cdr r)
  descends r q hr hq := h.descends r q hr (by rwa [← Store.pair_congr hpairs])
  body c form hform := (at_congr (congrArg _ hpairs)).2 (hbody c form hform)
  binding f entry hentry := (at_congr (congrArg _ hpairs)).2 (hbinding f entry hentry)

theorem define (f : FrameRef) (name : String) (hv : σ.At s .datum v) :
    σ.Fits (s.define f name v) := by
  refine h.of_pairs_eq rfl h.body fun g entry hentry => ?_
  rcases Store.mem_bindings_define hentry with rfl | hmem
  · exact hv
  · exact h.binding g entry hmem

/-- A new frame, with data bound in it. -/
theorem newFrame (outer : Option FrameRef) (f : FrameRef) {entries : Bindings}
    (hentries : ∀ entry ∈ entries, σ.At s .datum entry.2) :
    σ.Fits ((s.newFrame outer).2.bind f entries) := by
  have hpairs : ((s.newFrame outer).2.bind f entries).pairs = s.pairs := Store.pairs_bind
  have hclosures : ((s.newFrame outer).2.bind f entries).closures = s.closures :=
    Store.closures_bind
  refine h.of_pairs_eq hpairs (fun c => ?_) fun g entry hentry => ?_
  · rw [Store.closure_congr hclosures]
    exact h.body c
  · rcases Store.mem_bindings_bind hentry with hmem | hmem
    · exact hentries entry hmem
    · exact h.binding g entry (Store.mem_bindings_newFrame hmem)

theorem newClosure {c : Closure} (hbody : ∀ form ∈ c.body, σ.At s .form form) :
    σ.Fits (s.newClosure c).2 := by
  refine h.of_pairs_eq rfl (fun r => ?_) h.binding
  rw [Store.closure_newClosure]
  split
  · exact hbody
  · exact h.body r

/-- A change of one pair that is data, into another that has data in it. -/
theorem of_pair_ne (hr : σ r = .datum) (hsize : t.pairs.size = s.pairs.size)
    (hclosures : t.closures = s.closures) (hframes : t.frames = s.frames)
    (hne : ∀ q, q ≠ r → t.pair q = s.pair q) (hcar : σ.At s .datum (t.pair r).car)
    (hcdr : σ.At s .datum (t.pair r).cdr) : σ.Fits t where
  fresh q hq := h.fresh q (hsize ▸ hq)
  car q := by
    rw [at_congr hsize]
    by_cases hq : q = r
    · subst hq
      rwa [hr]
    · rw [hne q hq]
      exact h.car q
  cdr q := by
    rw [at_congr hsize]
    by_cases hq : q = r
    · subst hq
      rwa [hr]
    · rw [hne q hq]
      exact h.cdr q
  descends q q' hq hlink := by
    -- The pair that is changed is data, and the links of data are not bounded.
    have hqr : q ≠ r := fun heq => hq (heq ▸ hr)
    rw [hne q hqr] at hlink
    exact h.descends q q' hq hlink
  body c form hform := by
    rw [Store.closure_congr hclosures] at hform
    exact (at_congr hsize).2 (h.body c form hform)
  binding f entry hentry := by
    rw [Store.frame_congr hframes] at hentry
    exact (at_congr hsize).2 (h.binding f entry hentry)

theorem setCar (hr : σ.At s .datum (.pair r)) (hv : σ.At s .datum v) : σ.Fits (s.setCar r v) := by
  obtain ⟨hlt, hdatum⟩ := hr r rfl
  have hcdr := h.cdr r
  rw [hdatum] at hcdr
  refine h.of_pair_ne hdatum Store.size_pairs_setCar rfl rfl
    (fun q hq => Store.pair_setCar_of_ne hq) ?_ ?_
  · rwa [Store.pair_setCar_self hlt]
  · rwa [Store.pair_setCar_self hlt]

theorem setCdr (hr : σ.At s .datum (.pair r)) (hv : σ.At s .datum v) : σ.Fits (s.setCdr r v) := by
  obtain ⟨hlt, hdatum⟩ := hr r rfl
  have hcar := h.car r
  rw [hdatum] at hcar
  refine h.of_pair_ne hdatum Store.size_pairs_setCdr rfl rfl
    (fun q hq => Store.pair_setCdr_of_ne hq) ?_ ?_
  · rwa [Store.pair_setCdr_self hlt]
  · rwa [Store.pair_setCdr_self hlt]

end Fits

/-- The layout in which the next pair to be made has the role `p`. -/
def next (σ : Layout) (s : Store) (p : Role) : Layout := fun r =>
  if r.index = s.pairs.size then p else σ r

theorem next_self : σ.next s p ⟨s.pairs.size⟩ = p := if_pos rfl

theorem next_of_ne (h : r.index ≠ s.pairs.size) : σ.next s p r = σ r := if_neg h

theorem extends_cons : σ.Extends s (σ.next s p) (s.cons v w).2 where
  size_le := Nat.le_of_lt (Nat.lt_of_lt_of_eq (Nat.lt_succ_self _) Store.size_pairs_cons.symm)
  layout_eq _ hr := next_of_ne (Nat.ne_of_lt hr)
  pair_eq _ hr _ := Store.pair_cons_of_ne (Nat.ne_of_lt hr)

theorem at_cons : (σ.next s p).At (s.cons v w).2 p (s.cons v w).1 := by
  intro r hr
  obtain rfl : ⟨s.pairs.size⟩ = r := Value.pair.inj hr
  exact ⟨Nat.lt_of_lt_of_eq (Nat.lt_succ_self _) Store.size_pairs_cons.symm, next_self⟩

namespace Fits

/-- A new pair may have any role that its components suit. -/
theorem cons (h : σ.Fits s) (hv : σ.At s p.car v) (hw : σ.At s (p.cdr v) w) :
    (σ.next s p).Fits (s.cons v w).2 := by
  have hext : σ.Extends s (σ.next s p) (s.cons v w).2 := extends_cons
  have new : ∀ r : PairRef, r.index = s.pairs.size → r = ⟨s.pairs.size⟩ := fun r hr => by rw [← hr]
  refine ⟨fun r hr => ?_, fun r => ?_, fun r => ?_, fun r q hr hq => ?_,
    fun c form hform => hext.at (h.body c form hform),
    fun f entry hentry => hext.at (h.binding f entry hentry)⟩
  · rw [Store.size_pairs_cons] at hr
    rw [next_of_ne (Nat.ne_of_gt hr)]
    exact h.fresh r (Nat.le_of_lt hr)
  · by_cases hr : r.index = s.pairs.size
    · obtain rfl := new r hr
      rw [next_self, Store.pair_cons_self]
      exact hext.at hv
    · rw [next_of_ne hr, Store.pair_cons_of_ne hr]
      exact hext.at (h.car r)
  · by_cases hr : r.index = s.pairs.size
    · obtain rfl := new r hr
      rw [next_self, Store.pair_cons_self]
      exact hext.at hw
    · rw [next_of_ne hr, Store.pair_cons_of_ne hr]
      exact hext.at (h.cdr r)
  · by_cases hnew : r.index = s.pairs.size
    · -- The new pair comes after all that it can link to.
      obtain rfl := new r hnew
      rw [Store.pair_cons_self] at hq
      exact (hw q hq).1
    · rw [next_of_ne hnew] at hr
      rw [Store.pair_cons_of_ne hnew] at hq
      exact h.descends r q hr hq

theorem next_datum (h : σ.Fits s) : σ.next s .datum = σ := by
  funext r
  unfold next
  split
  · exact (h.fresh r (Nat.le_of_eq (Eq.symm ‹_›))).symm
  · rfl

/-- What a program makes is data. -/
theorem cons_datum (h : σ.Fits s) (hv : σ.At s .datum v) (hw : σ.At s .datum w) :
    σ.Fits (s.cons v w).2 ∧ σ.At (s.cons v w).2 .datum (s.cons v w).1 ∧
      σ.Extends s σ (s.cons v w).2 := by
  have hfits := h.cons (p := .datum) hv hw
  have hat := at_cons (σ := σ) (s := s) (p := .datum) (v := v) (w := w)
  have hext := extends_cons (σ := σ) (s := s) (p := .datum) (v := v) (w := w)
  rw [h.next_datum] at hfits hat hext
  exact ⟨hfits, hat, hext⟩

theorem list (h : σ.Fits s) {items : List Value} (hitems : ∀ v ∈ items, σ.At s .datum v) :
    σ.Fits (s.list items).2 ∧ σ.At (s.list items).2 .datum (s.list items).1 ∧
      σ.Extends s σ (s.list items).2 := by
  induction items with
  | nil => exact ⟨h, at_of_ne_pair (by simp [Store.list]), .refl σ s⟩
  | cons v items ih =>
    obtain ⟨hfits, hat, hext⟩ := ih fun w hw => hitems w (List.mem_cons_of_mem _ hw)
    obtain ⟨hfits', hat', hext'⟩ := hfits.cons_datum (hext.at (hitems v List.mem_cons_self)) hat
    exact ⟨hfits', hat', hext.trans hext'⟩

/-- Any text can be stored for any purpose. -/
theorem load (h : σ.Fits s) (d : Datum) (p : Role) : ∃ σ', Layout.Fits σ' (s.load d).2 ∧
    σ'.At (s.load d).2 p (s.load d).1 ∧ σ.Extends s σ' (s.load d).2 := by
  induction d generalizing σ s p with
  | nil | integer | symbol => exact ⟨σ, h, at_of_ne_pair (by simp [Store.load]), .refl σ s⟩
  | pair car cdr ihcar ihcdr =>
    -- Which role the second component has depends on the first one.
    obtain ⟨σ₁, h₁, hat₁, hext₁⟩ := ihcar h p.car
    obtain ⟨σ₂, h₂, hat₂, hext₂⟩ := ihcdr h₁ (p.cdr (s.load car).1)
    exact ⟨_, h₂.cons (hext₂.at hat₁) hat₂, at_cons, (hext₁.trans hext₂).trans extends_cons⟩

end Fits

end Layout

end SmallScheme
