import Almanac.Dataset.Date

/-!
A weather dataset is a list of named columns with one value a day. Its written form has a line
for each column: the name, a colon, and the values with blanks between them. A well-formed
dataset has distinct column names, a column of ISO dates, and as many values in every column as
there are dates. Values stay texts until a query needs a number.
-/

namespace Almanac

structure Column where
  name : String
  values : List String
deriving DecidableEq, Repr

def Column.toText (c : Column) : String :=
  c.name ++ ":" ++ String.join (c.values.map (" " ++ ·)) ++ "\n"

structure Dataset where
  columns : List Column
deriving DecidableEq, Repr

inductive DatasetError where
  /-- A line without a name; lines count from one. -/
  | malformedLine (line : Nat)
  | missingDateColumn
  | duplicateColumn (name : String)
  | raggedColumn (column : String) (expected found : Nat)
  | invalidDate (date : String)
  | noRecords
  | malformedRecords
  | unknownRow (row : String)
  | dateNotFound (date : String)
  | dateIndexOutOfRange (index : Int) (count : Nat)
  | emptyRange (start stop : String)
  | notNumeric (row date value : String)
  | missingRecordDate (record : Nat)
deriving DecidableEq, Repr

namespace DatasetError

def message : DatasetError → String
  | malformedLine line => "line " ++ toString line ++ ": expected `name: values...`"
  | missingDateColumn => "dataset has no `date` column"
  | duplicateColumn name => "column `" ++ name ++ "` appears more than once"
  | raggedColumn column expected found =>
    "column `" ++ column ++ "` has " ++ toString found ++ " values but there are " ++
      toString expected ++ " dates"
  | invalidDate date => "`" ++ date ++ "` is not a YYYY-MM-DD date"
  | noRecords => "dataset has no records"
  | malformedRecords => "invalid records JSON"
  | unknownRow row => "row `" ++ row ++ "` not found"
  | dateNotFound date => "date " ++ date ++ " not found in dataset"
  | dateIndexOutOfRange index count =>
    "date index " ++ toString index ++ " is out of range for " ++ toString count ++ " days"
  | emptyRange start stop => "date range " ++ start ++ "..=" ++ stop ++ " selects no days"
  | notNumeric row date value =>
    "value `" ++ value ++ "` of `" ++ row ++ "` on " ++ date ++ " is not a number"
  | missingRecordDate record => "record " ++ toString record ++ " has no `date` field"

end DatasetError

namespace Dataset

def dateColumn : String := "date"

def standardColumns : List String :=
  [dateColumn, "weather_code", "temperature_max", "temperature_min", "precipitation_sum",
    "wind_speed_max", "precipitation_probability_max"]

def empty : Dataset := ⟨standardColumns.map fun name => ⟨name, []⟩⟩

def columnNames (ds : Dataset) : List String := ds.columns.map Column.name

def column? (ds : Dataset) (name : String) : Option (List String) :=
  (ds.columns.find? fun c => c.name = name).map Column.values

def dates (ds : Dataset) : List String := (ds.column? dateColumn).getD []

def length (ds : Dataset) : Nat := ds.dates.length

def isEmpty (ds : Dataset) : Bool := ds.length = 0

/-- The rows that a query can ask for: every column but the dates. -/
def rows (ds : Dataset) : List String := ds.columnNames.filter (· ≠ dateColumn)

def firstRepeated? (seen : List String) : List String → Option String
  | [] => none
  | name :: rest =>
    if seen.contains name then some name else firstRepeated? (name :: seen) rest

def check (ds : Dataset) : Except DatasetError Unit :=
  match firstRepeated? [] ds.columnNames with
  | some name => .error (.duplicateColumn name)
  | none =>
    match ds.column? dateColumn with
    | none => .error .missingDateColumn
    | some dates =>
      match dates.find? fun date => !isIsoDate date with
      | some date => .error (.invalidDate date)
      | none =>
        match ds.columns.find? fun c => c.values.length ≠ dates.length with
        | some c => .error (.raggedColumn c.name dates.length c.values.length)
        | none => .ok ()

/-- What every dataset in use satisfies. -/
structure WellFormed (ds : Dataset) : Prop where
  distinct : ds.columnNames.Nodup
  dated : dateColumn ∈ ds.columnNames
  aligned : ∀ c ∈ ds.columns, c.values.length = ds.length
  iso : ∀ date ∈ ds.dates, isIsoDate date = true

def ofColumns (columns : List Column) : Except DatasetError Dataset :=
  match check ⟨columns⟩ with
  | .error e => .error e
  | .ok () => .ok ⟨columns⟩

def readColumn (number : Nat) (line : List Char) : Except DatasetError (Option Column) :=
  if (Text.trim line).isEmpty then .ok none
  else
    match Text.cutAt ':' line with
    | none => .error (.malformedLine number)
    | some (name, values) =>
      let name := Text.trim name
      if name.isEmpty then .error (.malformedLine number)
      else .ok (some ⟨String.ofList name, (Text.words values).map String.ofList⟩)

def readColumns (number : Nat) : List (List Char) → Except DatasetError (List Column)
  | [] => .ok []
  | line :: rest =>
    match readColumn number line with
    | .error e => .error e
    | .ok found =>
      match readColumns (number + 1) rest with
      | .error e => .error e
      | .ok columns => .ok (found.toList ++ columns)

def parse (text : String) : Except DatasetError Dataset :=
  match readColumns 1 (Text.lines text.toList) with
  | .error e => .error e
  | .ok columns => ofColumns columns

/-- A dataset that replaces another one must have days. -/
def parseUpload (text : String) : Except DatasetError Dataset :=
  match parse text with
  | .error e => .error e
  | .ok ds => if ds.isEmpty then .error .noRecords else .ok ds

def toText (ds : Dataset) : String := String.join (ds.columns.map Column.toText)

end Dataset

end Almanac
