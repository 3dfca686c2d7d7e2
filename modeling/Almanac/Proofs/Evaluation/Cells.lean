import Almanac.Proofs.Dataset.Reimport
import Almanac.Proofs.Display.Alignment
import Almanac.Proofs.Evaluation.Failure

/-!
The table of a dataset. Its rows are made from records, in which fields are sorted by their names,
and its cells are looked up in them by the names of the columns. Since names are distinct and each
column has a value for each day, the table shows each value where it stands in the dataset: days
from top to bottom, columns from left to right, nothing left out and nothing shown twice.
-/

namespace Almanac

namespace Dataset

variable {ds : Dataset} {day place : Nat} {text : String}

/-- What is looked up in the record of a day is the value of each column. -/
theorem WellFormed.rows_ofDataset (hds : ds.WellFormed) :
    (Grid.ofDataset ds).rows = (List.range ds.length).map fun day =>
      ds.columns.map fun c => Weather.cell c.name (c.values.getD day "") := by
  rw [Grid.ofDataset, records, List.map_map]
  refine List.map_congr_left fun day _ => ?_
  rw [Function.comp_apply, columnNames, List.map_map]
  refine List.map_congr_left fun c hc => ?_
  rw [Function.comp_apply, hds.find?_record hc]
  rfl

theorem rectangular_ofDataset (ds : Dataset) : (Grid.ofDataset ds).Rectangular := by
  intro row hrow
  obtain ⟨record, -, rfl⟩ := List.mem_map.mp hrow
  exact List.length_map _

theorem length_rows_ofDataset (ds : Dataset) : (Grid.ofDataset ds).rows.length = ds.length := by
  rw [Grid.ofDataset, List.length_map, records, List.length_map, List.length_range]

/-- The cells of the table are the values of the dataset, each in its place. -/
theorem WellFormed.cell_ofDataset_iff (hds : ds.WellFormed) :
    (∃ row, (Grid.ofDataset ds).rows[day]? = some row ∧ row[place]? = some text) ↔
      ∃ c value, ds.columns[place]? = some c ∧ c.values[day]? = some value ∧
        Weather.cell c.name value = text := by
  rw [hds.rows_ofDataset, List.getElem?_map]
  by_cases hday : day < ds.length
  · rw [List.getElem?_range hday, Option.map_some]
    constructor
    · rintro ⟨row, hrow, hcell⟩
      rw [← Option.some.inj hrow, List.getElem?_map] at hcell
      obtain ⟨c, hc, rfl⟩ := Option.map_eq_some_iff.mp hcell
      exact ⟨c, _, hc, hds.getElem?_values (List.mem_of_getElem? hc) hday, rfl⟩
    · rintro ⟨c, value, hc, hvalue, rfl⟩
      refine ⟨_, rfl, ?_⟩
      rw [List.getElem?_map, hc, Option.map_some, List.getD_eq_getElem?_getD, hvalue,
        Option.getD_some]
  · have hrange : (List.range ds.length)[day]? = none := by
      rw [List.getElem?_eq_none_iff, List.length_range]
      omega
    constructor
    · rintro ⟨row, hrow, -⟩
      rw [hrange] at hrow
      cases hrow
    · rintro ⟨c, value, hc, hvalue, -⟩
      have hlt := (List.getElem?_eq_some_iff.mp hvalue).1
      rw [hds.aligned c (List.mem_of_getElem? hc)] at hlt
      exact absurd hlt hday

end Dataset

namespace Environment

/-- A query for the table gives, and shows if asked to, a table with the names of the columns above
and a row for each day, both in the order of the dataset. Each row has a cell for each column, and
the cell of a day and a column is the value of that column on that day, in the form that a table
has for it. -/
theorem evaluate_table {env : Environment} {q : Query} (hds : env.dataset.WellFormed)
    (hq : q.command = "table") (print : Bool) :
    ∃ grid : Grid,
      env.evaluate print q = ⟨.ok (.grid grid), [], if print then [.table grid] else []⟩ ∧
      grid.headers = env.dataset.columns.map Column.name ∧
      grid.rows.length = env.dataset.length ∧ grid.Rectangular ∧
      ∀ (day place : Nat) (text : String),
        (∃ row, grid.rows[day]? = some row ∧ row[place]? = some text) ↔
          ∃ (c : Column) (value : String),
            env.dataset.columns[place]? = some c ∧ c.values[day]? = some value ∧
            Weather.cell c.name value = text := by
  refine ⟨.ofDataset env.dataset, ?_, rfl, env.dataset.length_rows_ofDataset,
    env.dataset.rectangular_ofDataset, fun day place text => hds.cell_ofDataset_iff⟩
  have haction : Action.ofQuery q = .ok .table := by
    unfold Action.ofQuery
    rw [hq]
    rfl
  rw [evaluate_of_action haction]
  rfl

theorem evaluate_table_two_columns :
    let columns : List Column :=
      [⟨"temperature_max", ["70", "75.5"]⟩, ⟨"date", ["2024-04-25", "2024-04-24"]⟩]
    let env : Environment := { isolated with dataset := ⟨columns⟩ }
    let q : Query := ⟨"table", none, [], [], ⟨0, 5⟩⟩
    ∃ grid : Grid, env.evaluate true q = ⟨.ok (.grid grid), [], [.table grid]⟩ ∧
      grid.headers = ["temperature_max", "date"] ∧
      (∃ row, grid.rows[1]? = some row ∧ row[0]? = some "75.5°") ∧
      ¬ ∃ row, grid.rows[2]? = some row ∧ row[0]? = some "" := by
  intro columns env q
  have hds : env.dataset.WellFormed := (Dataset.check_eq_ok_iff _).mp (by decide +kernel)
  have hq : q.command = "table" := rfl
  obtain ⟨grid, heval, hheaders, -, -, hcells⟩ := evaluate_table hds hq true
  refine ⟨grid, heval, hheaders, ?_, ?_⟩
  · exact (hcells 1 0 "75.5°").mpr ⟨_, _, rfl, rfl, rfl⟩
  · rw [hcells 2 0 ""]
    rintro ⟨c, value, hc, hvalue, -⟩
    obtain rfl := Option.some.inj hc
    cases hvalue

end Environment

end Almanac
