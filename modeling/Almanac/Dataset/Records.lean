import Almanac.Dataset.Selection
import Almanac.Json.Printer

/-!
A record is one day of a dataset, its values by the names of their columns. Records are shown,
and they are merged into a dataset by their dates. Either all records of a batch are merged or
none.
-/

namespace Almanac

abbrev Record := List (String × String)

structure Edit where
  row : String
  day : Nat
  value : String
deriving DecidableEq, Repr

def Column.edit (edit : Edit) (c : Column) : Column :=
  if c.name = edit.row then { c with values := c.values.set edit.day edit.value } else c

namespace Dataset

def record (ds : Dataset) (day : Nat) : Record :=
  Keyed.ofList (ds.columns.map fun c => (c.name, c.values.getD day ""))

def records (ds : Dataset) : List Record := (List.range ds.length).map ds.record

/-- The edits of a record's fields; the date itself is not edited. -/
def fieldEdits (ds : Dataset) (day : Nat) : Record → Except DatasetError (List Edit)
  | [] => .ok []
  | (field, value) :: rest =>
    if field = dateColumn then fieldEdits ds day rest
    else if ds.columnNames.contains field then
      (fieldEdits ds day rest).map (⟨field, day, value⟩ :: ·)
    else .error (.unknownRow field)

def recordEdits (ds : Dataset) (number : Nat) (fields : Record) :
    Except DatasetError (List Edit) := do
  match Keyed.find? dateColumn fields with
  | none => .error (.missingRecordDate number)
  | some date =>
    let day ← ds.dateIndex (.iso date)
    ds.fieldEdits day fields

def batchEdits (ds : Dataset) (number : Nat) : List Record → Except DatasetError (List Edit)
  | [] => .ok []
  | fields :: rest => do
    let edits ← ds.recordEdits number fields
    let more ← ds.batchEdits (number + 1) rest
    pure (edits ++ more)

def applyEdit (ds : Dataset) (edit : Edit) : Dataset := ⟨ds.columns.map (Column.edit edit)⟩

/-- Merges every record into the day of its date; also returns the number of records. -/
def updateRecords (ds : Dataset) (batch : List Record) : Except DatasetError (Dataset × Nat) := do
  let edits ← ds.batchEdits 0 batch
  pure (edits.foldl applyEdit ds, batch.length)

def keepDays (dates listed values : List String) : List String :=
  ((values.zip dates).filter fun day => !listed.contains day.2).map Prod.fst

def removeDates (ds : Dataset) (listed : List String) : Dataset × Nat :=
  (⟨ds.columns.map fun c => { c with values := keepDays ds.dates listed c.values }⟩,
    ds.dates.countP fun date => listed.contains date)

end Dataset

namespace Record

/-- A text stays as it is, and any other value becomes its compact JSON text with sorted keys. -/
def cell : Json → String
  | .text s => s
  | value => value.sorted.compact

def ofJson? (json : Json) : Option Record :=
  (json.toEntries? Json.toAny?).map fun fields => fields.map fun field => (field.1, cell field.2)

def parseBatch (text : String) : Except DatasetError (List Record) :=
  match (Json.parse? text).bind (Json.toList? ofJson?) with
  | some batch => .ok batch
  | none => .error .malformedRecords

end Record

end Almanac
