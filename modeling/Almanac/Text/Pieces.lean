import Almanac.Text.Blank

/-!
Cutting text at separators. The pieces of a text are what stands between its separators, empty
pieces included, so there is one piece more than there are separators. Words are the pieces
between blanks that are not empty, and lines are the pieces between line feeds.
-/

namespace Almanac.Text

def pieces (separates : Char → Bool) : List Char → List (List Char)
  | [] => [[]]
  | c :: rest =>
    if separates c then
      [] :: pieces separates rest
    else
      match pieces separates rest with
      | [] => [[c]]
      | piece :: more => (c :: piece) :: more

def words (cs : List Char) : List (List Char) :=
  (pieces isBlank cs).filter fun word => !word.isEmpty

def cutAt (mark : Char) : List Char → Option (List Char × List Char)
  | [] => none
  | c :: rest =>
    if c = mark then some ([], rest) else (cutAt mark rest).map fun cut => (c :: cut.1, cut.2)

def dropLast? (mark : Char) (cs : List Char) : Option (List Char) :=
  if cs.getLast? = some mark then some cs.dropLast else none

/-- The text inside a pair of equal delimiters, which must be two separate characters. -/
def unwrap? (delimiter : Char) : List Char → Option (List Char)
  | [] => none
  | c :: rest => if c = delimiter then dropLast? delimiter rest else none

def withoutReturn (line : List Char) : List Char := (dropLast? '\r' line).getD line

/-- The lines a list of line-feed pieces stands for: an ended line loses one carriage return,
and an empty piece after the last line feed is no line. -/
def endedLines : List (List Char) → List (List Char)
  | [] => []
  | [last] => if last.isEmpty then [] else [last]
  | line :: more => withoutReturn line :: endedLines more

def lines (cs : List Char) : List (List Char) := endedLines (pieces (· = '\n') cs)

theorem pieces_ne_nil (separates : Char → Bool) (cs : List Char) : pieces separates cs ≠ [] := by
  induction cs with
  | nil => simp [pieces]
  | cons c rest ih =>
    simp only [pieces]
    split
    · simp
    · split <;> simp

def join (separator : Char) : List (List Char) → List Char
  | [] => []
  | [piece] => piece
  | piece :: rest => piece ++ separator :: join separator rest

theorem join_pieces (separator : Char) (cs : List Char) :
    join separator (pieces (· = separator) cs) = cs := by
  induction cs with
  | nil => rfl
  | cons c rest ih =>
    simp only [pieces, decide_eq_true_eq]
    split
    · rename_i h
      subst h
      cases hp : pieces (· = c) rest with
      | nil => exact absurd hp (pieces_ne_nil _ _)
      | cons piece more => simp [join, ← hp, ih]
    · cases hp : pieces (· = separator) rest with
      | nil => exact absurd hp (pieces_ne_nil _ _)
      | cons piece more =>
        rw [hp] at ih
        cases more <;> simp_all [join]

end Almanac.Text
