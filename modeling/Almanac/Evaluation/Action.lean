import Almanac.Dataset.Aggregate
import Almanac.Query.Tree
import Almanac.Weather.Service

/-!
What a query asks to be done. A query is taken apart by the names of its arguments, so one that
was put together by hand may lack a part that its command needs.
-/

namespace Almanac

/-- The reduction of a row over a range of days. -/
structure Measure where
  kind : Aggregate
  row : String
  first : Option DateToken
  last : Option DateToken
  /-- Where the query that asks for it stands. -/
  span : Span
deriving DecidableEq, Repr

inductive Location where
  | point (place : Coordinates)
  | zip (code : String)
  | city (name : String)
deriving DecidableEq

inductive Action where
  | help
  | upload
  | clear
  | table
  | measure (m : Measure)
  | chart (row : String) (first last : Option DateToken)
  | compareWith (location : Location) (m : Measure)
  | compareBoth (left right : Measure)
deriving DecidableEq

inductive Part where
  | command
  | aggregate
  | locationType
  | oneSubQuery
  | twoSubQueries
  | argument (name : String)
deriving DecidableEq, Repr

def Part.phrase : Part → String
  | command => "known command"
  | aggregate => "aggregate"
  | locationType => "known location type"
  | oneSubQuery => "one sub-query"
  | twoSubQueries => "two sub-queries"
  | argument name => name

structure Unresolved where
  command : String
  part : Part
  span : Span
deriving DecidableEq, Repr

namespace Query

def lacks {α : Type} (q : Query) (part : Part) : Except Unresolved α :=
  .error ⟨q.command, part, q.span⟩

def need {α : Type} (q : Query) (name : String) (value : Option α) : Except Unresolved α :=
  match value with
  | some found => .ok found
  | none => q.lacks (.argument name)

end Query

/-- A single value is asked for on its day, and anything else on the days from its start to its
end. -/
def Measure.ofQuery (q : Query) : Except Unresolved Measure :=
  match Aggregate.ofWord? q.command with
  | none => q.lacks .aggregate
  | some kind =>
    match q.need "row" (q.row? "row") with
    | .error e => .error e
    | .ok row =>
      match kind with
      | .value => .ok ⟨kind, row, q.date? "day", none, q.span⟩
      | _ => .ok ⟨kind, row, q.date? "start", q.date? "end", q.span⟩

def Location.ofQuery (variant : String) (q : Query) : Except Unresolved Location :=
  match variant with
  | "coord" => do
    let latitude ← q.need "latitude" (q.number? "latitude")
    let longitude ← q.need "longitude" (q.number? "longitude")
    pure (.point ⟨latitude, longitude⟩)
  | "zip" => (q.need "zip code" ((q.arg? "zip code").map Argument.raw)).map .zip
  | "city" => (q.need "city name" (q.text? "city name")).map .city
  | _ => q.lacks .locationType

namespace Action

def bothOfQuery (q : Query) : Except Unresolved Action :=
  match q.subQueries with
  | [left, right] => do
    let left ← Measure.ofQuery left
    let right ← Measure.ofQuery right
    pure (.compareBoth left right)
  | _ => q.lacks .twoSubQueries

def withOfQuery (variant : String) (q : Query) : Except Unresolved Action := do
  let location ← Location.ofQuery variant q
  match q.subQueries with
  | [sub] => (Measure.ofQuery sub).map (.compareWith location)
  | _ => q.lacks .oneSubQuery

def ofQuery (q : Query) : Except Unresolved Action :=
  match q.command with
  | "help" => .ok .help
  | "input" => .ok .upload
  | "clear" => .ok .clear
  | "table" => .ok .table
  | "histogram" =>
    (q.need "row" (q.row? "row")).map fun row => .chart row (q.date? "start") (q.date? "end")
  | "compare" =>
    match q.variant with
    | none => q.lacks .command
    | some "dataset" => bothOfQuery q
    | some variant => withOfQuery variant q
  | word =>
    if (Aggregate.ofWord? word).isSome then (Measure.ofQuery q).map .measure
    else q.lacks .command

end Action

end Almanac
