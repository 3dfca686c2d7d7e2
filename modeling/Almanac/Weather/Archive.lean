import Almanac.Dataset.Aggregate
import Almanac.Decimal.Layout
import Almanac.Weather.Service

/-!
The archive of historical weather. It knows daily series by names of its own and does not carry
every row of a dataset. Days without a value are left out of a series, and a series without any
value is no data at all.
-/

namespace Almanac.Weather

def archiveVariable? : String → Option String
  | "weather_code" => some "weather_code"
  | "temperature_max" => some "temperature_2m_max"
  | "temperature_min" => some "temperature_2m_min"
  | "precipitation_sum" => some "precipitation_sum"
  | "wind_speed_max" => some "wind_gusts_10m_max"
  | _ => none

/-- What is asked of the archive: the reduction of a row at a place over the days from a first to
a last ISO date. -/
structure ArchiveQuery where
  place : Coordinates
  kind : Aggregate
  row : String
  first : String
  last : String
deriving DecidableEq

def dailySeries? (body : Json) : Option (Option (List (String × Json))) := do
  let m ← body.members? ["daily"]
  m.orElse "daily" none (Json.toOption? (Json.toEntries? Json.toAny?))

def decodeSeries (body name : String) : Except ServiceError (List Float) :=
  match (Json.parse? body).bind dailySeries? with
  | none => .error (.malformed .archive)
  | some daily =>
    match daily.bind (Keyed.find? name) with
    | some (.list items) =>
      match items.filterMap Json.toFloat? with
      | [] => .error (.noHistoricalData name)
      | values => .ok values
    | _ => .error (.noHistoricalData name)

def archiveRequest (url name : String) (query : ArchiveQuery) : Request where
  url := url
  fields :=
    [("latitude", Decimal.text query.place.latitude),
      ("longitude", Decimal.text query.place.longitude), ("start_date", query.first),
      ("end_date", query.last), ("daily", name), ("temperature_unit", "fahrenheit"),
      ("wind_speed_unit", "mph"), ("precipitation_unit", "inch")]
  authorization := none

def askArchive (transport : Transport) (url : String) (query : ArchiveQuery) :
    Except ServiceError Float :=
  match archiveVariable? query.row with
  | none => .error (.unsupportedRow query.row)
  | some name => do
    let body ← fetch transport .archive (archiveRequest url name query)
    let values ← decodeSeries body name
    match query.kind.reduce? values with
    | some value => pure value
    | none => .error (.noHistoricalData query.row)

end Almanac.Weather
