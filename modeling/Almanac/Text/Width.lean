/-!
Positions in a line count the bytes of its UTF-8 form, while the text itself is a list of
characters. The width of a run is the number of bytes it takes; taking and dropping by width
cut only between characters, so the two parts of a cut always join to the text again.
-/

namespace Almanac.Text

def width : List Char → Nat
  | [] => 0
  | c :: rest => c.utf8Size + width rest

def byteLength (text : String) : Nat := width text.toList

/-- The longest run of whole characters at the front that fits into so many bytes. -/
def takeWidth : Nat → List Char → List Char
  | _, [] => []
  | n, c :: rest => if c.utf8Size ≤ n then c :: takeWidth (n - c.utf8Size) rest else []

def dropWidth : Nat → List Char → List Char
  | _, [] => []
  | n, c :: rest => if c.utf8Size ≤ n then dropWidth (n - c.utf8Size) rest else c :: rest

theorem takeWidth_append_dropWidth (n : Nat) (cs : List Char) :
    takeWidth n cs ++ dropWidth n cs = cs := by
  induction cs generalizing n with
  | nil => rfl
  | cons c rest ih =>
    simp only [takeWidth, dropWidth]
    split <;> simp [ih]

@[simp] theorem width_append (left right : List Char) :
    width (left ++ right) = width left + width right := by
  induction left with
  | nil => simp [width]
  | cons c rest ih => simp [width, ih, Nat.add_assoc]

/-- Cutting at the end of a leading run gives back exactly that run. -/
theorem takeWidth_width_append (left right : List Char) :
    takeWidth (width left) (left ++ right) = left := by
  induction left with
  | nil =>
    cases right with
    | nil => rfl
    | cons c rest =>
      have := c.utf8Size_pos
      simp only [takeWidth, width, List.nil_append]
      rw [if_neg (by omega)]
  | cons c rest ih => simp [takeWidth, width, ih]

theorem dropWidth_width_append (left right : List Char) :
    dropWidth (width left) (left ++ right) = right := by
  have h := takeWidth_append_dropWidth (width left) (left ++ right)
  rw [takeWidth_width_append] at h
  exact List.append_cancel_left h

end Almanac.Text
