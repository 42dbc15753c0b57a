/-!
Byte offsets into text. A position in a source file is the number of bytes that its text takes in
UTF-8, and a cut is only possible between two characters: a cut inside a character, or past the
end, gives nothing.
-/

set_option autoImplicit false

namespace Companion.Text

/-- The number of bytes that a list of characters takes in UTF-8. -/
def byteLength : List Char → Nat
  | [] => 0
  | c :: cs => c.utf8Size + byteLength cs

/-- What is left after the first `n` bytes, if a character ends there. -/
def dropBytes : Nat → List Char → Option (List Char)
  | 0, cs => some cs
  | _ + 1, [] => none
  | n + 1, c :: cs => if c.utf8Size ≤ n + 1 then dropBytes (n + 1 - c.utf8Size) cs else none

/-- The first `n` bytes, if a character ends there. -/
def takeBytes : Nat → List Char → Option (List Char)
  | 0, _ => some []
  | _ + 1, [] => none
  | n + 1, c :: cs =>
    if c.utf8Size ≤ n + 1 then (takeBytes (n + 1 - c.utf8Size) cs).map (c :: ·) else none

/-- The text between two byte offsets, if both lie between characters and are in order. -/
def between (start stop : Nat) (cs : List Char) : Option (List Char) :=
  if start ≤ stop then (dropBytes start cs).bind (takeBytes (stop - start)) else none

@[simp] theorem byteLength_nil : byteLength [] = 0 := rfl

@[simp] theorem byteLength_cons (c : Char) (cs : List Char) :
    byteLength (c :: cs) = c.utf8Size + byteLength cs := rfl

@[simp] theorem byteLength_append (a b : List Char) :
    byteLength (a ++ b) = byteLength a + byteLength b := by
  induction a with
  | nil => simp
  | cons c cs ih => simp [ih, Nat.add_assoc]

theorem length_le_byteLength (cs : List Char) : cs.length ≤ byteLength cs := by
  induction cs with
  | nil => simp
  | cons c cs ih =>
    have := Char.utf8Size_pos c
    simp only [List.length_cons, byteLength_cons]
    omega

theorem dropBytes_append (a b : List Char) : dropBytes (byteLength a) (a ++ b) = some b := by
  induction a with
  | nil => simp [dropBytes]
  | cons c cs ih =>
    have h := Char.utf8Size_pos c
    obtain ⟨n, hn⟩ : ∃ n, c.utf8Size + byteLength cs = n + 1 :=
      ⟨c.utf8Size + byteLength cs - 1, by omega⟩
    simp only [byteLength_cons, List.cons_append, hn, dropBytes]
    rw [← hn]
    simp [ih]

theorem takeBytes_append (a b : List Char) : takeBytes (byteLength a) (a ++ b) = some a := by
  induction a with
  | nil => simp [takeBytes]
  | cons c cs ih =>
    have h := Char.utf8Size_pos c
    obtain ⟨n, hn⟩ : ∃ n, c.utf8Size + byteLength cs = n + 1 :=
      ⟨c.utf8Size + byteLength cs - 1, by omega⟩
    simp only [byteLength_cons, List.cons_append, hn, takeBytes]
    rw [← hn]
    simp [ih]

/-- The middle of three pieces is the text between the offsets where it starts and ends. -/
theorem between_append (a b c : List Char) :
    between (byteLength a) (byteLength a + byteLength b) (a ++ (b ++ c)) = some b := by
  simp [between, dropBytes_append, takeBytes_append]

end Companion.Text
