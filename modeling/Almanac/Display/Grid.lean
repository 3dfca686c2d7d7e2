import Almanac.Evaluation.Output
import Almanac.Text.Blank

/-!
A grid as lines of text. Every column is as wide as its widest cell, counted in characters; cells
are filled up with blanks on the right, and a rule stands under the headers. Blanks at the end of
a line are dropped. Cells can be filled up to a limited width only, so that a grid with a wider
column cannot be printed.
-/

namespace Almanac.Grid

def separator : String := " │ "

def crossing : String := "─┼─"

/-- Widths that also hold the cells of a row; cells beyond the last column are not looked at. -/
def widen : List Nat → List String → List Nat
  | [], _ => []
  | widths, [] => widths
  | width :: widths, cell :: cells =>
    (if width < cell.length then cell.length else width) :: widen widths cells

def widths (grid : Grid) : List Nat := grid.rows.foldl widen (grid.headers.map String.length)

def padded (width : Nat) (cell : String) : String :=
  cell ++ String.ofList (List.replicate (width - cell.length) ' ')

def rowLine (widths : List Nat) (cells : List String) : String :=
  String.ofList (Text.trimEnd (separator.intercalate (widths.zipWith padded cells)).toList)

def rule (widths : List Nat) : String :=
  crossing.intercalate (widths.map fun width => String.ofList (List.replicate width '─'))

def lines (grid : Grid) : List String :=
  rowLine grid.widths grid.headers :: rule grid.widths :: grid.rows.map (rowLine grid.widths)

def widthLimit : Nat := 65535

def tooWideMessage : String := "Formatting argument out of range"

/-- The lines of a grid, unless a column is too wide. -/
def printed (grid : Grid) : Except String (List String) :=
  if grid.widths.all (· ≤ widthLimit) then .ok grid.lines else .error tooWideMessage

end Almanac.Grid
