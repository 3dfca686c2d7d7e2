import Almanac.Dataset.Basic
import Almanac.Dataset.Aggregate

/-!
Selecting days of a dataset and reducing the values of a row over them. A range names its first
and its last day; either may be left out, which means the first or the last day there is.
-/

namespace Almanac.Dataset

def dateIndex (ds : Dataset) (token : DateToken) : Except DatasetError Nat :=
  match token.position? ds.dates with
  | some position => .ok position
  | none =>
    match token with
    | .index place => .error (.dateIndexOutOfRange place ds.length)
    | .iso date => .error (.dateNotFound date)

/-- The ISO form of a date. One that is given in this form need not be a day of the dataset. -/
def resolveDate (ds : Dataset) : DateToken → Except DatasetError String
  | .iso date => .ok date
  | .index place =>
    match ds.dateIndex (.index place) with
    | .error e => .error e
    | .ok position => .ok (ds.dates.getD position "")

/-- The half-open range of positions from the first day to the last. -/
def range (ds : Dataset) (first last : Option DateToken) : Except DatasetError (Nat × Nat) := do
  let start ←
    match first with
    | some token => ds.dateIndex token
    | none => pure 0
  let stop ←
    match last with
    | some token => (ds.dateIndex token).map (· + 1)
    | none => pure ds.length
  if stop ≤ start then
    .error (.emptyRange ((first.map DateToken.display).getD "first")
      ((last.map DateToken.display).getD "last"))
  else pure (start, stop)

def slice {α : Type} (values : List α) (days : Nat × Nat) : List α :=
  (values.drop days.1).take (days.2 - days.1)

def row? (ds : Dataset) (row : String) : Option (List String) :=
  if row = dateColumn then none else ds.column? row

def readNumber (row date value : String) : Except DatasetError Float :=
  match Decimal.readFinite? value.toList with
  | some x => .ok x
  | none => .error (.notNumeric row date value)

def numbers (ds : Dataset) (row : String) (days : Nat × Nat) : Except DatasetError (List Float) :=
  match ds.row? row with
  | none => .error (.unknownRow row)
  | some values =>
    ((slice ds.dates days).zip (slice values days)).mapM fun day => readNumber row day.1 day.2

/-- The days that an aggregate reduces: for a single value the first day of the range alone,
whatever its last day is. -/
def aggregateDays (ds : Dataset) (kind : Aggregate) (first last : Option DateToken) :
    Except DatasetError (Nat × Nat) :=
  match kind with
  | .value => (ds.range first none).map fun days => (days.1, days.1 + 1)
  | _ => ds.range first last

def aggregate (ds : Dataset) (kind : Aggregate) (row : String) (first last : Option DateToken) :
    Except DatasetError Float := do
  let days ← ds.aggregateDays kind first last
  let values ← ds.numbers row days
  match kind.reduce? values with
  | some x => pure x
  | none => .error (.emptyRange "" "")

def histogram (ds : Dataset) (row : String) (first last : Option DateToken) :
    Except DatasetError (List (String × Float)) := do
  let days ← ds.range first last
  let values ← ds.numbers row days
  pure ((slice ds.dates days).zip values)

end Almanac.Dataset
