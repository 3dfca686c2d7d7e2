import Almanac.Display.Grid
import Almanac.Proofs.Text.Pieces
import Mathlib.Data.List.Forall2

/-!
The columns of a printed table. The widths of a table hold all of its cells, so that each column
starts at the same place in every line: separators and crossings stand below each other, and from
the start of a column on each line has the text of its own cell. What has no lines is a table with
a cell that is too wide to be filled up.
-/

namespace Almanac.Grid

/-- Each row has as many cells as there are headers. -/
def Rectangular (grid : Grid) : Prop := ∀ row ∈ grid.rows, row.length = grid.headers.length

instance (grid : Grid) : Decidable grid.Rectangular :=
  inferInstanceAs (Decidable (∀ row ∈ grid.rows, row.length = grid.headers.length))

/-- The text of each cell stands where its column starts. Up to the separator in front of the next
column there are blanks only, one or more of them. Behind the last cell there is nothing, and
neither are blanks at its own end. -/
def Carries (cs : List Char) : List Nat → List String → Prop
  | [], [] => cs = []
  | [start], [cell] => cs.drop start = Text.trimEnd cell.toList
  | start :: next :: more, cell :: cells =>
    (∃ bar blanks, next = bar + 2 ∧
      (cs.take bar).drop start = cell.toList ++ List.replicate (blanks + 1) ' ' ∧
      cs[bar]? = some '│' ∧ ∀ c ∈ cs[bar + 1]?, c = ' ') ∧
    Carries cs (next :: more) cells
  | _, _ => False

structure Shows (starts : List Nat) (line : String) (cells : List String) : Prop where
  carries : Carries line.toList starts cells
  trimmed : ∀ c ∈ line.toList.getLast?, Text.isBlank c = false

/-- A rule has a crossing where lines have a separator, and is drawn through elsewhere. -/
def Crosses (rule : List Char) : List Nat → Prop
  | [] => rule = []
  | [start] => ∀ c ∈ rule.drop start, c = '─'
  | start :: next :: more =>
    (∃ bar, next = bar + 2 ∧ (∀ c ∈ (rule.take bar).drop start, c = '─') ∧
      rule[bar]? = some '┼' ∧ rule[bar + 1]? = some '─') ∧
    Crosses rule (next :: more)

/-- A line for the headers, a rule, and a line for each row, with the same starts of the columns
in all of them. -/
def Aligned (grid : Grid) (lines : List String) : Prop :=
  ∃ starts header rule rows, lines = header :: rule :: rows ∧
    starts.length = grid.headers.length ∧ (∀ start ∈ starts.head?, start = 0) ∧
    Shows starts header grid.headers ∧ Crosses rule.toList starts ∧
    List.Forall₂ (Shows starts) rows grid.rows

/-! Widths -/

def Hold (widths : List Nat) (cells : List String) : Prop :=
  List.Forall₂ (fun width cell => cell.length ≤ width) widths cells

theorem hold_lengths (cells : List String) : Hold (cells.map String.length) cells := by
  rw [Hold, List.forall₂_map_left_iff]
  exact List.forall₂_same.mpr fun cell _ => le_rfl

theorem hold_widen {widths : List Nat} {cells : List String} (h : Hold widths cells)
    (row : List String) : Hold (widen widths row) cells := by
  induction h generalizing row with
  | nil => exact .nil
  | cons hcell hcells ih =>
    cases row with
    | nil => exact .cons hcell hcells
    | cons other row =>
      refine .cons ?_ (ih row)
      split
      · omega
      · exact hcell

theorem hold_widen_self {widths : List Nat} {row : List String}
    (h : row.length = widths.length) : Hold (widen widths row) row := by
  induction widths generalizing row with
  | nil =>
    rw [List.length_eq_zero_iff.mp h]
    exact .nil
  | cons width widths ih =>
    cases row with
    | nil => cases h
    | cons cell row =>
      refine .cons ?_ (ih (Nat.succ.inj h))
      split <;> omega

theorem length_widen (widths : List Nat) (row : List String) :
    (widen widths row).length = widths.length := by
  induction widths generalizing row with
  | nil => rfl
  | cons width widths ih =>
    cases row with
    | nil => rfl
    | cons cell row => simp only [widen, List.length_cons, ih]

theorem mem_widen {widths : List Nat} {row : List String} {width : Nat}
    (h : width ∈ widen widths row) : width ∈ widths ∨ ∃ cell ∈ row, cell.length = width := by
  induction widths generalizing row with
  | nil => exact .inl h
  | cons old widths ih =>
    cases row with
    | nil => exact .inl h
    | cons cell row =>
      rcases List.mem_cons.mp h with rfl | hmem
      · split
        · exact .inr ⟨cell, List.mem_cons_self, rfl⟩
        · exact .inl List.mem_cons_self
      · rcases ih hmem with hold | ⟨other, hother, hwidth⟩
        · exact .inl (List.mem_cons_of_mem _ hold)
        · exact .inr ⟨other, List.mem_cons_of_mem _ hother, hwidth⟩

variable {rows : List (List String)} {widths : List Nat}

theorem length_foldl_widen (rows : List (List String)) (widths : List Nat) :
    (rows.foldl widen widths).length = widths.length := by
  induction rows generalizing widths with
  | nil => rfl
  | cons row rows ih => rw [List.foldl_cons, ih, length_widen]

theorem hold_foldl_widen {cells : List String} (h : Hold widths cells)
    (rows : List (List String)) : Hold (rows.foldl widen widths) cells := by
  induction rows generalizing widths with
  | nil => exact h
  | cons row rows ih => exact ih (hold_widen h row)

theorem hold_foldl_widen_of_mem {row : List String} (hmem : row ∈ rows)
    (h : ∀ row ∈ rows, row.length = widths.length) : Hold (rows.foldl widen widths) row := by
  induction rows generalizing widths with
  | nil => cases hmem
  | cons first rows ih =>
    obtain ⟨hfirst, hrows⟩ := List.forall_mem_cons.mp h
    rcases List.mem_cons.mp hmem with rfl | hmem
    · exact hold_foldl_widen (hold_widen_self hfirst) rows
    · exact ih hmem fun other hother => (hrows other hother).trans (length_widen widths first).symm

theorem mem_foldl_widen {width : Nat} (h : width ∈ rows.foldl widen widths) :
    width ∈ widths ∨ ∃ row ∈ rows, ∃ cell ∈ row, cell.length = width := by
  induction rows generalizing widths with
  | nil => exact .inl h
  | cons row rows ih =>
    rcases ih h with hwidth | ⟨other, hother, hcell⟩
    · rcases mem_widen hwidth with hold | hcell
      · exact .inl hold
      · exact .inr ⟨row, List.mem_cons_self, hcell⟩
    · exact .inr ⟨other, List.mem_cons_of_mem _ hother, hcell⟩

variable {grid : Grid}

theorem length_widths (grid : Grid) : grid.widths.length = grid.headers.length := by
  rw [widths, length_foldl_widen, List.length_map]

theorem Rectangular.hold_widths (h : grid.Rectangular) {cells : List String}
    (hmem : cells ∈ grid.headers :: grid.rows) : Hold grid.widths cells := by
  rcases List.mem_cons.mp hmem with rfl | hrow
  · exact hold_foldl_widen (hold_lengths _) _
  · refine hold_foldl_widen_of_mem hrow fun row hrow => ?_
    rw [List.length_map, h row hrow]

theorem exists_of_mem_widths {width : Nat} (h : width ∈ grid.widths) :
    ∃ cells ∈ grid.headers :: grid.rows, ∃ cell ∈ cells, cell.length = width := by
  rcases mem_foldl_widen h with hheader | ⟨row, hrow, hcell⟩
  · exact ⟨grid.headers, List.mem_cons_self, List.mem_map.mp hheader⟩
  · exact ⟨row, List.mem_cons_of_mem _ hrow, hcell⟩

theorem Hold.exists_width {cells : List String} (h : Hold widths cells) {cell : String}
    (hmem : cell ∈ cells) : ∃ width ∈ widths, cell.length ≤ width := by
  induction h with
  | nil => cases hmem
  | @cons width other widths cells hcell hcells ih =>
    rcases List.mem_cons.mp hmem with rfl | hmem
    · exact ⟨width, List.mem_cons_self, hcell⟩
    · obtain ⟨wide, hwide, hle⟩ := ih hmem
      exact ⟨wide, List.mem_cons_of_mem _ hwide, hle⟩

/-- What cannot be printed is a table with a cell that is wider than a cell can be filled up to. -/
theorem Rectangular.printed_eq_error_iff (h : grid.Rectangular) :
    grid.printed = .error tooWideMessage ↔
      ∃ cells ∈ grid.headers :: grid.rows, ∃ cell ∈ cells, widthLimit < cell.length := by
  have herror : grid.printed = .error tooWideMessage ↔
      ∃ width ∈ grid.widths, widthLimit < width := by
    simp [printed]
  rw [herror]
  constructor
  · rintro ⟨width, hwidth, hlimit⟩
    obtain ⟨cells, hcells, cell, hcell, rfl⟩ := exists_of_mem_widths hwidth
    exact ⟨cells, hcells, cell, hcell, hlimit⟩
  · rintro ⟨cells, hcells, cell, hcell, hlimit⟩
    obtain ⟨width, hwidth, hle⟩ := (h.hold_widths hcells).exists_width hcell
    exact ⟨width, hwidth, hlimit.trans_le hle⟩

/-! Lines -/

def startsFrom (start : Nat) : List Nat → List Nat
  | [] => []
  | width :: more => start :: startsFrom (start + width + 3) more

theorem length_startsFrom (start : Nat) (widths : List Nat) :
    (startsFrom start widths).length = widths.length := by
  induction widths generalizing start with
  | nil => rfl
  | cons width widths ih => rw [startsFrom, List.length_cons, ih, List.length_cons]

/-- What stands around a mark in the part of a text behind a place. -/
theorem of_drop_eq_append_cons {cs left right : List Char} {c : Char} {start n : Nat}
    (hleft : left.length = n) (h : cs.drop start = left ++ c :: right) :
    (cs.take (start + n)).drop start = left ∧ cs[start + n]? = some c ∧
      cs[start + n + 1]? = right.head? ∧ cs.drop (start + n + 2) = right.tail := by
  have hright : cs.drop (start + n + 1) = right := by
    rw [Nat.add_assoc, ← List.drop_drop, h, ← hleft, ← List.drop_drop, List.drop_left]
    rfl
  refine ⟨?_, ?_, ?_, ?_⟩
  · rw [List.drop_take, h, Nat.add_sub_cancel_left, ← hleft, List.take_left]
  · rw [← List.getElem?_drop, h, List.getElem?_append_right (Nat.le_of_eq hleft), hleft,
      Nat.sub_self]
    rfl
  · rw [← hright, List.head?_drop]
  · rw [← hright, List.tail_drop]

def filled (widths : List Nat) (cells : List String) : List Char :=
  (separator.intercalate (widths.zipWith padded cells)).toList

theorem toList_padded (width : Nat) (cell : String) :
    (padded width cell).toList = cell.toList ++ List.replicate (width - cell.length) ' ' := by
  rw [padded, String.toList_append, String.toList_ofList]

theorem length_toList_padded {width : Nat} {cell : String} (h : cell.length ≤ width) :
    (padded width cell).toList.length = width := by
  rw [toList_padded, List.length_append, List.length_replicate, String.length_toList]
  omega

theorem filled_singleton (width : Nat) (cell : String) :
    filled [width] [cell] = (padded width cell).toList := rfl

theorem filled_cons_cons (width next : Nat) (widths : List Nat) (cell other : String)
    (cells : List String) :
    filled (width :: next :: widths) (cell :: other :: cells) =
      ((padded width cell).toList ++ [' ']) ++
        '│' :: ' ' :: filled (next :: widths) (other :: cells) := by
  simp [filled, String.toList_intercalate, separator]

/-- Behind a separator the next column starts, also where all that is behind it was dropped. -/
theorem carries_startsFrom {line : List Char} {cells : List String} {start : Nat}
    (h : Hold widths cells) (hne : widths ≠ [])
    (hline : line.drop start = Text.trimEnd (filled widths cells)) :
    Carries line (startsFrom start widths) cells := by
  induction h generalizing start with
  | nil => exact absurd rfl hne
  | @cons width cell widths cells hcell hcells ih =>
    have hblank : ∀ c ∈ List.replicate (width - cell.length) ' ', Text.isBlank c = true := by
      intro c hc
      rw [List.eq_of_mem_replicate hc]
      decide
    cases hcells with
    | nil =>
      rw [filled_singleton, toList_padded, Text.trimEnd_append_of_blank hblank] at hline
      exact hline
    | @cons next other widths cells hother hcells =>
      have hbar : Text.isBlank '│' = false := by decide
      rw [filled_cons_cons, Text.trimEnd_append_cons hbar] at hline
      have hlength : ((padded width cell).toList ++ [' ']).length = width + 1 := by
        rw [List.length_append, length_toList_padded hcell, List.length_singleton]
      obtain ⟨htake, hmark, hafter, hdrop⟩ := of_drop_eq_append_cons hlength hline
      refine ⟨⟨start + (width + 1), width - cell.length, rfl, ?_, hmark, ?_⟩, ih (by simp) ?_⟩
      · rw [htake, toList_padded, List.append_assoc, List.replicate_succ']
      · intro c hc
        rw [hafter] at hc
        exact Text.head?_trimEnd_cons hc
      · rw [← Text.tail_trimEnd_cons ' ']
        exact hdrop

theorem shows_rowLine {cells : List String} (h : Hold widths cells) :
    Shows (startsFrom 0 widths) (rowLine widths cells) cells := by
  have hline : (rowLine widths cells).toList = Text.trimEnd (filled widths cells) := by
    rw [rowLine, String.toList_ofList, filled]
  constructor
  · cases h with
    | nil => exact hline
    | cons hcell hcells => exact carries_startsFrom (.cons hcell hcells) (by simp) hline
  · intro c hc
    rw [hline] at hc
    exact Text.not_blank_of_getLast?_trimEnd hc

theorem crosses_startsFrom {line : List Char} {start : Nat} (hne : widths ≠ [])
    (hline : line.drop start = (rule widths).toList) : Crosses line (startsFrom start widths) := by
  induction widths generalizing start with
  | nil => exact absurd rfl hne
  | cons width widths ih =>
    cases widths with
    | nil =>
      have hrule : (rule [width]).toList = List.replicate width '─' := by simp [rule]
      intro c hc
      rw [hline, hrule] at hc
      exact List.eq_of_mem_replicate hc
    | cons next widths =>
      have hrule : (rule (width :: next :: widths)).toList =
          (List.replicate width '─' ++ ['─']) ++ '┼' :: '─' :: (rule (next :: widths)).toList := by
        simp [rule, String.toList_intercalate, crossing]
      have hlength : (List.replicate width '─' ++ ['─']).length = width + 1 := by
        rw [List.length_append, List.length_replicate, List.length_singleton]
      obtain ⟨htake, hmark, hafter, hdrop⟩ := of_drop_eq_append_cons hlength (hline.trans hrule)
      refine ⟨⟨start + (width + 1), rfl, ?_, hmark, hafter⟩, ih (by simp) hdrop⟩
      intro c hc
      rw [htake, ← List.replicate_succ'] at hc
      exact List.eq_of_mem_replicate hc

theorem Rectangular.aligned_lines (h : grid.Rectangular) : grid.Aligned grid.lines := by
  refine ⟨startsFrom 0 grid.widths, rowLine grid.widths grid.headers, rule grid.widths,
    grid.rows.map (rowLine grid.widths), rfl, ?_, ?_, ?_, ?_, ?_⟩
  · rw [length_startsFrom, length_widths]
  · intro start hstart
    cases hwidths : grid.widths with
    | nil => simp [hwidths, startsFrom] at hstart
    | cons width more =>
      rw [hwidths] at hstart
      exact (Option.some.inj hstart).symm
  · exact shows_rowLine (h.hold_widths List.mem_cons_self)
  · cases hwidths : grid.widths with
    | nil => rfl
    | cons width more => exact crosses_startsFrom (by simp) rfl
  · rw [List.forall₂_map_left_iff, List.forall₂_same]
    intro row hrow
    exact shows_rowLine (h.hold_widths (List.mem_cons_of_mem _ hrow))

/-- A table with as many cells in each row as there are headers is printed in aligned columns. The
one thing that keeps it from being printed is a cell that is too wide. -/
theorem aligned_of_rectangular (h : grid.Rectangular) :
    (grid.printed = .error tooWideMessage ↔
      ∃ cells ∈ grid.headers :: grid.rows, ∃ cell ∈ cells, widthLimit < cell.length) ∧
      ((∀ cells ∈ grid.headers :: grid.rows, ∀ cell ∈ cells, cell.length ≤ widthLimit) →
        ∃ lines, grid.printed = .ok lines ∧ grid.Aligned lines) := by
  refine ⟨h.printed_eq_error_iff, fun hfit => ⟨grid.lines, ?_, h.aligned_lines⟩⟩
  have hwidths : ∀ width ∈ grid.widths, width ≤ widthLimit := by
    intro width hwidth
    obtain ⟨cells, hcells, cell, hcell, rfl⟩ := exists_of_mem_widths hwidth
    exact hfit cells hcells cell hcell
  rw [printed, if_pos (by simpa using hwidths)]

theorem aligned_of_empty_last_cell :
    (⟨["date", "note"], [["2024-04-24", "70° "], ["04-25", ""]]⟩ : Grid).Aligned
      ["date       │ note", "───────────┼─────", "2024-04-24 │ 70°", "04-25      │"] := by
  have hrectangular :
      (⟨["date", "note"], [["2024-04-24", "70° "], ["04-25", ""]]⟩ : Grid).Rectangular := by
    decide +kernel
  have hprinted :
      (⟨["date", "note"], [["2024-04-24", "70° "], ["04-25", ""]]⟩ : Grid).printed =
        .ok ["date       │ note", "───────────┼─────", "2024-04-24 │ 70°", "04-25      │"] := by
    decide +kernel
  obtain ⟨lines, hlines, haligned⟩ := (aligned_of_rectangular hrectangular).2 (by decide +kernel)
  rwa [Except.ok.inj (hlines.symm.trans hprinted)] at haligned

theorem rectangular_of_one_cell (header cell : String) :
    (⟨[header], [[cell]]⟩ : Grid).Rectangular := by
  intro row hrow
  rw [List.mem_singleton.mp hrow]
  rfl

/-- A cell of one character more than the limit is enough for a table not to be printed. -/
theorem not_aligned_of_wide_cell :
    (⟨["t"], [[String.ofList (List.replicate 65536 '7')]]⟩ : Grid).Rectangular ∧
      ¬ ∃ lines,
        (⟨["t"], [[String.ofList (List.replicate 65536 '7')]]⟩ : Grid).printed = .ok lines := by
  have hrectangular := rectangular_of_one_cell "t" (String.ofList (List.replicate 65536 '7'))
  refine ⟨hrectangular, ?_⟩
  have hwide : widthLimit < (String.ofList (List.replicate 65536 '7')).length := by
    rw [String.length_ofList, List.length_replicate]
    decide
  have herror := hrectangular.printed_eq_error_iff.mpr
    ⟨_, List.mem_cons_of_mem _ List.mem_cons_self, _, List.mem_cons_self, hwide⟩
  rintro ⟨lines, hlines⟩
  rw [herror] at hlines
  cases hlines

end Almanac.Grid
