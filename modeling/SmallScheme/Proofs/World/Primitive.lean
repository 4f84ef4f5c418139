import SmallScheme.Proofs.Primitive.Effect
import SmallScheme.Proofs.World.Run

/-!
# Primitives on both sides

A primitive sees of its operands whether they are integers, which ones, and their
types, all of which are the same up to a renaming; and it follows pairs. So on
both sides of a world it does the same (`simulates_apply`).
-/

namespace SmallScheme

open StoreM

namespace Primitive

variable {ρ : Renaming} {v w : Value} {args args' : List Value}

theorem integer_eq (op : Primitive) (h : ρ.OnValue v w) : integer op v = integer op w := by
  cases h <;> rfl

theorem integers_eq (op : Primitive) (h : List.Forall₂ ρ.OnValue args args') :
    integers op args = integers op args' := by
  induction h with
  | nil => rfl
  | cons hv _ ih =>
    rw [integers] at ih ⊢
    rw [integers, List.mapM_cons, List.mapM_cons, integer_eq op hv, ih]
    rfl

theorem wrongCount_eq (op : Primitive) (expected : Arity) (h : List.Forall₂ ρ.OnValue args args') :
    wrongCount op expected args = wrongCount op expected args' := by
  rw [wrongCount, wrongCount, h.length_eq]

theorem absolute_eq (h : List.Forall₂ ρ.OnValue args args') : absolute args = absolute args' := by
  rcases h with _ | ⟨hv, _ | ⟨hw, hrest⟩⟩
  · rfl
  · rw [absolute, absolute, integer_eq .abs hv]
  · exact congrArg Except.error (wrongCount_eq .abs _ (.cons hv (.cons hw hrest)))

end Primitive

namespace World

open Primitive

variable {W : World} {v w : Value} {args args' : List Value} {op : Primitive}

theorem simulates_ofExcept {r r' : Except EvalError Value} (h : Yields Value.Plain r) (heq : r = r') :
    W.Simulates (fun W => W.rel.OnValue) (ofExcept r) (ofExcept r') := by
  subst heq
  cases r with
  | error e => exact simulates_fail e
  | ok v =>
    refine simulates_pure ?_
    have hplain := h v rfl
    cases v with
    | nil => exact .nil
    | integer n => exact .integer n
    | symbol name => exact .symbol name
    | pair | closure => exact hplain.elim

theorem simulates_unary {f g : Value → Eval Value}
    (hf : ∀ v w, W.rel.OnValue v w → W.Simulates (fun W => W.rel.OnValue) (f v) (g w))
    (h : List.Forall₂ W.rel.OnValue args args') :
    W.Simulates (fun W => W.rel.OnValue) (unary op f args) (unary op g args') := by
  rcases h with _ | ⟨hv, _ | ⟨hw, hrest⟩⟩
  · exact simulates_fail _
  · exact hf _ _ hv
  · have hcount := wrongCount_eq op (.exactly 1) (.cons hv (.cons hw hrest))
    change W.Simulates _ (fail _) (fail _)
    rw [hcount]
    exact simulates_fail _

theorem simulates_binary {f g : Value → Value → Eval Value}
    (hf : ∀ v w v' w', W.rel.OnValue v v' → W.rel.OnValue w w' →
      W.Simulates (fun W => W.rel.OnValue) (f v w) (g v' w'))
    (h : List.Forall₂ W.rel.OnValue args args') :
    W.Simulates (fun W => W.rel.OnValue) (binary op f args) (binary op g args') := by
  rcases h with _ | ⟨hv, _ | ⟨hw, _ | ⟨hu, hrest⟩⟩⟩
  · exact simulates_fail _
  · exact simulates_fail _
  · exact hf _ _ _ _ hv hw
  · have hcount := wrongCount_eq op (.exactly 2) (.cons hv (.cons hw (.cons hu hrest)))
    change W.Simulates _ (fail _) (fail _)
    rw [hcount]
    exact simulates_fail _

theorem simulates_predicate {p : Value → Bool} (hp : ∀ v w, W.rel.OnValue v w → p v = p w)
    (h : List.Forall₂ W.rel.OnValue args args') :
    W.Simulates (fun W => W.rel.OnValue) (predicate op p args) (predicate op p args') :=
  simulates_unary (fun v w hv => by
    rw [hp v w hv]
    exact simulates_pure (Renaming.onValue_ofBool _)) h

theorem simulates_pairOf (h : W.rel.OnValue v w) :
    W.Simulates (fun W r q => W.rel (.pair r) (.pair q)) (pairOf op v) (pairOf op w) := by
  cases h with
  | pair h => exact simulates_pure h
  | nil | integer | symbol | closure => exact simulates_fail _

theorem simulates_indexOf (h : W.rel.OnValue v w) :
    W.Simulates (fun _ => Eq) (indexOf op v) (indexOf op w) := by
  rw [indexOf, indexOf, integer_eq op h]
  cases integer op w with
  | error e => exact simulates_fail e
  | ok n =>
    change W.Simulates _ (if n.toInt < 0 then _ else _) (if n.toInt < 0 then _ else _)
    split
    · exact simulates_fail _
    · exact simulates_pure rfl

theorem endedEarly_eq (index : Fixnum) (h : W.rel.OnValue v w) :
    endedEarly op index v = endedEarly op index w := by
  cases h <;> rfl

theorem simulates_dropTo (h : W.rel.OnValue v w) (k : Nat) (index : Fixnum) :
    W.Simulates (fun W => W.rel.OnValue) (dropTo op v k index) (dropTo op w k index) := by
  refine simulates_bind (simulates_read (R := World.OnWalk) (onWalk h k)) fun W' a b _ hab => ?_
  cases hab with
  | ok h => exact simulates_pure h
  | error h =>
    dsimp only
    rw [endedEarly_eq index h]
    exact simulates_fail _

theorem simulates_elementAt {i j : Value} (h : W.rel.OnValue v w) (hi : W.rel.OnValue i j) :
    W.Simulates (fun W => W.rel.OnValue) (elementAt v i) (elementAt w j) := by
  refine simulates_bind (simulates_indexOf hi) fun W₁ a b h₁ hab => ?_
  obtain ⟨k, index⟩ := a
  subst hab
  refine simulates_bind (simulates_dropTo (h.mono h₁.le) k index) fun W₂ a b _ hab => ?_
  cases hab with
  | pair h => exact simulates_read (onPair h).car
  | nil | integer | symbol | closure => exact simulates_fail _

theorem simulates_tailAt {i j : Value} (h : W.rel.OnValue v w) (hi : W.rel.OnValue i j) :
    W.Simulates (fun W => W.rel.OnValue) (tailAt v i) (tailAt w j) := by
  refine simulates_bind (simulates_indexOf hi) fun W₁ a b h₁ hab => ?_
  obtain ⟨k, index⟩ := a
  subst hab
  exact simulates_dropTo (h.mono h₁.le) k index

/-- Every primitive does the same on both sides. -/
theorem simulates_apply (op : Primitive) (h : List.Forall₂ W.rel.OnValue args args') :
    W.Simulates (fun W => W.rel.OnValue) (op.apply args) (op.apply args') := by
  cases op with
  | add =>
    refine simulates_ofExcept (yields_sum Value.plain_integer args) ?_
    rw [sum, sum, integers_eq .add h]
  | mul =>
    refine simulates_ofExcept (yields_product Value.plain_integer args) ?_
    rw [product, product, integers_eq .mul h]
  | sub =>
    refine simulates_ofExcept (yields_difference Value.plain_integer args) ?_
    rw [difference, difference, integers_eq .sub h, wrongCount_eq .sub _ h]
  | div =>
    refine simulates_ofExcept (yields_quotient Value.plain_integer args) ?_
    rw [quotient, quotient, integers_eq .div h, wrongCount_eq .div _ h]
  | max =>
    refine simulates_ofExcept (yields_greatest Value.plain_integer args) ?_
    rw [greatest, greatest, integers_eq .max h, wrongCount_eq .max _ h]
  | min =>
    refine simulates_ofExcept (yields_least Value.plain_integer args) ?_
    rw [least, least, integers_eq .min h, wrongCount_eq .min _ h]
  | abs => exact simulates_ofExcept (yields_absolute Value.plain_integer args) (absolute_eq h)
  | eq | lt | gt | le | ge =>
    refine simulates_ofExcept (yields_compare Value.plain_ofBool _ _ args) ?_
    rw [Primitive.compare, Primitive.compare, integers_eq _ h]
  | isNumber | isSymbol | isPair =>
    exact simulates_predicate (fun v w h => by rw [h.type_eq]) h
  | isBoolean => exact simulates_predicate (fun v w h => h.isBoolean_eq) h
  | isNull => exact simulates_predicate (fun v w h => by cases h <;> rfl) h
  | not => exact simulates_predicate (fun v w h => h.isFalse_eq) h
  | isList =>
    refine simulates_unary (fun v w h => simulates_read ?_) h
    rw [isList_eq h]
    exact Renaming.onValue_ofBool _
  | cons => exact simulates_binary (fun v w v' w' hv hw => simulates_cons hv hw) h
  | car =>
    exact simulates_unary (fun v w h => simulates_bind (simulates_pairOf h) fun W' r q _ hrq =>
      simulates_read (onPair hrq).car) h
  | cdr =>
    exact simulates_unary (fun v w h => simulates_bind (simulates_pairOf h) fun W' r q _ hrq =>
      simulates_read (onPair hrq).cdr) h
  | list => exact simulates_list h
  | listRef => exact simulates_binary (fun v w v' w' hv hw => simulates_elementAt hv hw) h
  | listTail => exact simulates_binary (fun v w v' w' hv hw => simulates_tailAt hv hw) h
  | setCar =>
    refine simulates_binary (fun v w v' w' hv hw => ?_) h
    refine simulates_bind (simulates_pairOf hv) fun W₁ r q h₁ hrq => ?_
    exact simulates_bind (simulates_setCar hrq (hw.mono h₁.le)) fun _ _ _ _ _ => simulates_pure .nil
  | setCdr =>
    refine simulates_binary (fun v w v' w' hv hw => ?_) h
    refine simulates_bind (simulates_pairOf hv) fun W₁ r q h₁ hrq => ?_
    exact simulates_bind (simulates_setCdr hrq (hw.mono h₁.le)) fun _ _ _ _ _ => simulates_pure .nil

end World

end SmallScheme
