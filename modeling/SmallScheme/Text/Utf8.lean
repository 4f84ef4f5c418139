/-!
# Byte offsets

Texts are taken apart character by character, while the places in them are
counted in bytes of their UTF-8 form. This module is the exchange between the
two: the bytes that characters take (`utf8Length`), the characters that a
number of bytes holds (`takeBytes`) and those that are left then (`dropBytes`),
and every character with the offset at which it begins (`withOffsets`).
-/

namespace SmallScheme.Text

/-- The number of bytes that `cs` takes. -/
def utf8Length : List Char → Nat
  | [] => 0
  | c :: cs => c.utf8Size + utf8Length cs

/-- The leading characters that lie within the first `n` bytes. -/
def takeBytes : Nat → List Char → List Char
  | _, [] => []
  | n, c :: cs => if c.utf8Size ≤ n then c :: takeBytes (n - c.utf8Size) cs else []

/-- The characters after those that lie within the first `n` bytes. -/
def dropBytes : Nat → List Char → List Char
  | _, [] => []
  | n, c :: cs => if c.utf8Size ≤ n then dropBytes (n - c.utf8Size) cs else c :: cs

/-- The characters with the offsets at which they begin, the first of them
    beginning at `offset`. -/
def withOffsets (offset : Nat) : List Char → List (Nat × Char)
  | [] => []
  | c :: cs => (offset, c) :: withOffsets (offset + c.utf8Size) cs

@[simp] theorem utf8Length_nil : utf8Length [] = 0 := rfl

@[simp] theorem utf8Length_cons (c : Char) (cs : List Char) :
    utf8Length (c :: cs) = c.utf8Size + utf8Length cs := rfl

@[simp] theorem utf8Length_append (cs ds : List Char) :
    utf8Length (cs ++ ds) = utf8Length cs + utf8Length ds := by
  induction cs with
  | nil => simp
  | cons c cs ih => simp [ih, Nat.add_assoc]

theorem dropBytes_utf8Length (pre cs : List Char) :
    dropBytes (utf8Length pre) (pre ++ cs) = cs := by
  induction pre with
  | nil =>
    cases cs with
    | nil => rfl
    | cons c cs => simp [dropBytes, Nat.ne_of_gt c.utf8Size_pos]
  | cons c pre ih => simp [dropBytes, ih]

theorem withOffsets_append (offset : Nat) (cs ds : List Char) :
    withOffsets offset (cs ++ ds) =
      withOffsets offset cs ++ withOffsets (offset + utf8Length cs) ds := by
  induction cs generalizing offset with
  | nil => rfl
  | cons c cs ih => simp [withOffsets, ih, Nat.add_assoc]

end SmallScheme.Text
