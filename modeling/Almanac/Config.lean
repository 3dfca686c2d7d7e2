import Almanac.Evaluation.Basic
import Almanac.Weather.Geocoding

/-!
Settings: the files in which the dataset and the history are kept, and how the remote services
are reached. What a settings file leaves out keeps its default, and a field that is no setting is
refused. A key that is set in the environment comes before the one in the file, unless it is
empty.
-/

namespace Almanac

structure Config where
  dataset : String := "weather.txt"
  history : String := "history.json"
  geocodeKey : Option String := none
  geocodeUrl : String := "https://api.radar.io/v1/geocode/forward"
  archiveUrl : String := "https://archive-api.open-meteo.com/v1/archive"
  /-- In seconds; without it requests may take any time. -/
  timeout : Option Nat := none
deriving DecidableEq, Repr

namespace Config

def default : Config := {}

def keyVariable : String := "WQ_GEOCODE_API_KEY"

def fieldNames : List String :=
  ["dataset", "history", "geocode_api_key", "geocode_url", "archive_url", "timeout_secs"]

def ofJson? (json : Json) : Option Config := do
  let m ← json.exactMembers? fieldNames
  let dataset ← m.orElse "dataset" default.dataset Json.toText?
  let history ← m.orElse "history" default.history Json.toText?
  let geocodeKey ← m.orElse "geocode_api_key" none (Json.toOption? Json.toText?)
  let geocodeUrl ← m.orElse "geocode_url" default.geocodeUrl Json.toText?
  let archiveUrl ← m.orElse "archive_url" default.archiveUrl Json.toText?
  let timeout ← m.orElse "timeout_secs" none (Json.toOption? Json.toNat?)
  pure ⟨dataset, history, geocodeKey, geocodeUrl, archiveUrl, timeout⟩

def parse? (text : String) : Option Config := (Json.parse? text).bind ofJson?

def withKey (config : Config) : Option String → Config
  | some key => if key.isEmpty then config else { config with geocodeKey := some key }
  | none => config

def withDataset (config : Config) : Option String → Config
  | some path => { config with dataset := path }
  | none => config

def services (config : Config) (transport : Weather.Transport) : Services where
  locate address :=
    (Weather.findPlace transport config.geocodeUrl config.geocodeKey address).mapError
      Weather.ServiceError.message
  archive query :=
    (Weather.askArchive transport config.archiveUrl query).mapError Weather.ServiceError.message

end Config

end Almanac
