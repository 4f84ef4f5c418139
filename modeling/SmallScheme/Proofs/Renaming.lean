import Mathlib.Data.List.Forall2
import Mathlib.Order.Basic
import SmallScheme.Proofs.Store.Place

/-!
# Renamings of places

A renaming says which places of one store stand for which places of another.
Values and cells that are the same up to a renaming (`Renaming.OnValue`,
`Renaming.OnCell`) differ in nothing but the numbers of the places in them: no
type, name, text or number of elements tells them apart.
-/

namespace SmallScheme

/-- Which places of one store stand for which of another. -/
abbrev Renaming := Place → Place → Prop

namespace Renaming

/-- Two values are the same up to a renaming. -/
inductive OnValue (ρ : Renaming) : Value → Value → Prop
  | nil : OnValue ρ .nil .nil
  | integer (n : Fixnum) : OnValue ρ (.integer n) (.integer n)
  | symbol (name : String) : OnValue ρ (.symbol name) (.symbol name)
  | pair {r q : PairRef} (h : ρ (.pair r) (.pair q)) : OnValue ρ (.pair r) (.pair q)
  | closure {c d : ClosureRef} (h : ρ (.closure c) (.closure d)) :
      OnValue ρ (.closure c) (.closure d)

/-- Two bindings are the same up to a renaming. -/
def OnEntry (ρ : Renaming) (entry entry' : String × Value) : Prop :=
  entry.1 = entry'.1 ∧ ρ.OnValue entry.2 entry'.2

/-- Two pairs of values are the same up to a renaming. -/
structure OnPair (ρ : Renaming) (p q : Pair) : Prop where
  car : ρ.OnValue p.car q.car
  cdr : ρ.OnValue p.cdr q.cdr

/-- Two closures are the same up to a renaming. -/
structure OnClosure (ρ : Renaming) (c d : Closure) : Prop where
  params : c.params = d.params
  body : List.Forall₂ ρ.OnValue c.body d.body
  scope : ρ (.frame c.scope) (.frame d.scope)

/-- Two frames are the same up to a renaming. -/
structure OnFrame (ρ : Renaming) (f g : Frame) : Prop where
  outer : Option.Rel (fun f g => ρ (.frame f) (.frame g)) f.outer g.outer
  bindings : List.Forall₂ ρ.OnEntry f.bindings g.bindings

/-- Two cells are the same up to a renaming. -/
inductive OnCell (ρ : Renaming) : Cell → Cell → Prop
  | pair {p q : Pair} (h : ρ.OnPair p q) : OnCell ρ (.pair p) (.pair q)
  | closure {c d : Closure} (h : ρ.OnClosure c d) : OnCell ρ (.closure c) (.closure d)
  | frame {f g : Frame} (h : ρ.OnFrame f g) : OnCell ρ (.frame f) (.frame g)

variable {ρ ρ' : Renaming} {v w : Value}

/-! ## More places -/

theorem OnValue.mono (hle : ρ ≤ ρ') (h : ρ.OnValue v w) : ρ'.OnValue v w := by
  cases h with
  | nil => exact .nil
  | integer n => exact .integer n
  | symbol name => exact .symbol name
  | pair h => exact .pair (hle _ _ h)
  | closure h => exact .closure (hle _ _ h)

theorem onValues_mono (hle : ρ ≤ ρ') {vs ws : List Value} (h : List.Forall₂ ρ.OnValue vs ws) :
    List.Forall₂ ρ'.OnValue vs ws :=
  h.imp fun _ _ => OnValue.mono hle

theorem onOuter_mono (hle : ρ ≤ ρ') {o o' : Option FrameRef}
    (h : Option.Rel (fun f g => ρ (.frame f) (.frame g)) o o') :
    Option.Rel (fun f g => ρ' (.frame f) (.frame g)) o o' := by
  cases h with
  | some h => exact .some (hle _ _ h)
  | none => exact .none

theorem OnCell.mono (hle : ρ ≤ ρ') {c d : Cell} (h : ρ.OnCell c d) : ρ'.OnCell c d := by
  cases h with
  | pair h => exact .pair ⟨h.car.mono hle, h.cdr.mono hle⟩
  | closure h => exact .closure ⟨h.params, onValues_mono hle h.body, hle _ _ h.scope⟩
  | frame h =>
    exact .frame ⟨onOuter_mono hle h.outer, h.bindings.imp fun _ _ h => ⟨h.1, h.2.mono hle⟩⟩

/-! ## What is the same of values -/

section Values

variable (h : ρ.OnValue v w)

include h

theorem OnValue.type_eq : v.type = w.type := by cases h <;> rfl

theorem OnValue.isBoolean_eq : v.isBoolean = w.isBoolean := by cases h <;> rfl

theorem OnValue.isFalse_eq : v.isFalse = w.isFalse := by cases h <;> rfl

theorem OnValue.isListLike_eq : v.isListLike = w.isListLike := by cases h <;> rfl

theorem OnValue.atomText_eq : v.atomText = w.atomText := by cases h <;> rfl

theorem OnValue.eq_nil_iff : v = .nil ↔ w = .nil := by cases h <;> simp

theorem OnValue.eq_symbol_iff (name : String) : v = .symbol name ↔ w = .symbol name := by
  cases h <;> simp

end Values

theorem onValue_ofBool (b : Bool) : ρ.OnValue (.ofBool b) (.ofBool b) := .symbol _

/-! ## Renamings to the same place -/

theorem OnValue.eq (hρ : ∀ p q, ρ p q → p = q) (h : ρ.OnValue v w) : v = w := by
  cases h with
  | nil | integer | symbol => rfl
  | pair h => exact congrArg _ (Place.pair.inj (hρ _ _ h))
  | closure h => exact congrArg _ (Place.closure.inj (hρ _ _ h))

theorem onValues_eq (hρ : ∀ p q, ρ p q → p = q) {vs ws : List Value}
    (h : List.Forall₂ ρ.OnValue vs ws) : vs = ws := by
  induction h with
  | nil => rfl
  | cons h _ ih => rw [h.eq hρ, ih]

theorem onEntries_eq (hρ : ∀ p q, ρ p q → p = q) {b b' : Bindings}
    (h : List.Forall₂ ρ.OnEntry b b') : b = b' := by
  induction h with
  | nil => rfl
  | cons h _ ih => rw [Prod.ext h.1 (h.2.eq hρ), ih]

/-- What is the same up to a renaming that keeps every place is the same. -/
theorem OnCell.eq (hρ : ∀ p q, ρ p q → p = q) {c d : Cell} (h : ρ.OnCell c d) : c = d := by
  cases h with
  | @pair p q h =>
    obtain ⟨car, cdr⟩ := p
    obtain ⟨car', cdr'⟩ := q
    obtain ⟨rfl, rfl⟩ : car = car' ∧ cdr = cdr' := ⟨h.car.eq hρ, h.cdr.eq hρ⟩
    rfl
  | @closure c d h =>
    obtain ⟨params, body, scope⟩ := c
    obtain ⟨params', body', scope'⟩ := d
    obtain rfl : params = params' := h.params
    obtain rfl : body = body' := onValues_eq hρ h.body
    obtain rfl : scope = scope' := Place.frame.inj (hρ _ _ h.scope)
    rfl
  | @frame f g h =>
    obtain ⟨outer, bindings⟩ := f
    obtain ⟨outer', bindings'⟩ := g
    obtain rfl : bindings = bindings' := onEntries_eq hρ h.bindings
    cases h.outer with
    | some hframe =>
      obtain rfl := Place.frame.inj (hρ _ _ hframe)
      rfl
    | none => rfl

/-! ## Bindings -/

/-- A name has the same value in bindings that are the same. -/
theorem lookup_onEntries {b b' : Bindings} (h : List.Forall₂ ρ.OnEntry b b') (name : String) :
    Option.Rel ρ.OnValue (b.lookup name) (b'.lookup name) := by
  induction h with
  | nil => exact .none
  | @cons entry entry' rest rest' h _ ih =>
    obtain ⟨other, v⟩ := entry
    obtain ⟨other', v'⟩ := entry'
    obtain ⟨rfl, hv⟩ : other = other' ∧ ρ.OnValue v v' := h
    rw [List.lookup_cons, List.lookup_cons]
    cases name == other with
    | true => exact .some hv
    | false => exact ih

theorem insert_onEntries {b b' : Bindings} (h : List.Forall₂ ρ.OnEntry b b') (name : String)
    (hv : ρ.OnValue v w) : List.Forall₂ ρ.OnEntry (b.insert name v) (b'.insert name w) := by
  induction h with
  | nil => exact .cons ⟨rfl, hv⟩ .nil
  | @cons entry entry' rest rest' h hrest ih =>
    obtain ⟨other, u⟩ := entry
    obtain ⟨other', u'⟩ := entry'
    obtain ⟨rfl, hu⟩ : other = other' ∧ ρ.OnValue u u' := h
    rw [Bindings.insert, Bindings.insert]
    split
    · exact .cons ⟨rfl, hv⟩ hrest
    · exact .cons ⟨rfl, hu⟩ ih

theorem zip_onEntries {vs ws : List Value} (h : List.Forall₂ ρ.OnValue vs ws)
    (names : List String) : List.Forall₂ ρ.OnEntry (names.zip vs) (names.zip ws) := by
  induction names generalizing vs ws with
  | nil => exact .nil
  | cons name names ih =>
    cases h with
    | nil => exact .nil
    | cons hv hrest => exact .cons ⟨rfl, hv⟩ (ih hrest)

/-! ## Places that are mentioned -/

/-- What stands for itself. -/
theorem onValue_self {v : Value} (h : ∀ p, v.place? = some p → ρ p p) : ρ.OnValue v v := by
  cases v with
  | nil => exact .nil
  | integer n => exact .integer n
  | symbol name => exact .symbol name
  | pair r => exact .pair (h _ rfl)
  | closure c => exact .closure (h _ rfl)

theorem onCell_self {c : Cell} (h : ∀ p, c.Mentions p → ρ p p) : ρ.OnCell c c := by
  cases c with
  | pair c =>
    exact .pair ⟨onValue_self fun p hp => h p (.inl hp), onValue_self fun p hp => h p (.inr hp)⟩
  | closure c =>
    refine .closure ⟨rfl, List.forall₂_same.2 fun v hv => ?_, h _ (.inr rfl)⟩
    exact onValue_self fun p hp => h p (.inl ⟨v, hv, hp⟩)
  | frame f =>
    refine .frame ⟨?_, List.forall₂_same.2 fun entry hentry => ⟨rfl, ?_⟩⟩
    · cases houter : f.outer with
      | none => exact .none
      | some g => exact .some (h _ (.inr ⟨g, houter, rfl⟩))
    · exact onValue_self fun p hp => h p (.inl ⟨entry, hentry, hp⟩)

/-- A place in a value stands for another one. -/
theorem OnValue.exists_rel {v w : Value} (h : ρ.OnValue v w) {p : Place} (hp : v.place? = some p) :
    ∃ q, ρ p q := by
  cases h with
  | nil | integer | symbol => cases hp
  | pair h =>
    cases hp
    exact ⟨_, h⟩
  | closure h =>
    cases hp
    exact ⟨_, h⟩

theorem exists_of_left_eq_some {α β : Type} {R : α → β → Prop} {o : Option α} {o' : Option β}
    (h : Option.Rel R o o') {a : α} (ha : o = some a) : ∃ b, R a b := by
  cases h with
  | some h => exact ⟨_, Option.some.inj ha ▸ h⟩
  | none => cases ha

theorem exists_of_right_eq_some {α β : Type} {R : α → β → Prop} {o : Option α} {o' : Option β}
    (h : Option.Rel R o o') {b : β} (hb : o' = some b) : ∃ a, R a b := by
  cases h with
  | some h => exact ⟨_, Option.some.inj hb ▸ h⟩
  | none => cases hb

theorem exists_of_mem {α β : Type} {R : α → β → Prop} {l : List α} {l' : List β}
    (h : List.Forall₂ R l l') {a : α} (ha : a ∈ l) : ∃ b, R a b := by
  induction h with
  | nil => cases ha
  | cons hab _ ih =>
    rcases List.mem_cons.1 ha with rfl | ha
    · exact ⟨_, hab⟩
    · exact ih ha

theorem OnCell.exists_rel {c d : Cell} (h : ρ.OnCell c d) {p : Place} (hp : c.Mentions p) :
    ∃ q, ρ p q := by
  cases h with
  | pair h => exact hp.elim h.car.exists_rel h.cdr.exists_rel
  | closure h =>
    obtain ⟨v, hv, hp⟩ | rfl := hp
    · obtain ⟨w, hvw⟩ := exists_of_mem h.body hv
      exact hvw.exists_rel hp
    · exact ⟨_, h.scope⟩
  | @frame f g h =>
    obtain ⟨entry, hentry, hp⟩ | ⟨o, ho, rfl⟩ := hp
    · obtain ⟨entry', hentry'⟩ := exists_of_mem h.bindings hentry
      exact hentry'.2.exists_rel hp
    · obtain ⟨_, hrel⟩ := exists_of_left_eq_some h.outer ho
      exact ⟨_, hrel⟩

end Renaming

end SmallScheme
