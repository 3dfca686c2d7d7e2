import Almanac.Json.Decoding
import Almanac.Weather.Request

/-!
Remote weather services. A request is sent by a transport, which is given from outside; a request
that cannot be written, and a service that cannot be reached, refuses a request or sends what
cannot be used are causes of an error.
-/

namespace Almanac

structure Coordinates where
  latitude : Float
  longitude : Float
deriving DecidableEq

namespace Weather

inductive Service where
  | archive
  | geocoding
deriving DecidableEq, Repr

def Service.name : Service → String
  | archive => "weather archive"
  | geocoding => "geocoding service"

inductive ServiceError where
  | unreachable (service : Service) (address : Option Address)
  | status (service : Service) (code : Nat) (reason : Option String)
  | malformed (service : Service)
  | noHistoricalData (series : String)
  | unsupportedRow (row : String)
  | noAddressFound (address : String)
  | missingKey
deriving DecidableEq, Repr

def ServiceError.message : ServiceError → String
  | unreachable service none => "request to " ++ service.name ++ " failed: builder error"
  | unreachable service (some address) =>
    "request to " ++ service.name ++ " failed: error sending request for url (" ++
      String.ofList address.toList ++ ")"
  | status service code reason =>
    service.name ++ " returned HTTP " ++ toString code ++ (reason.elim "" (": " ++ ·))
  | malformed service => "malformed " ++ service.name ++ " response"
  | noHistoricalData series => "no historical data for " ++ series
  | unsupportedRow row => "row `" ++ row ++ "` is not available in the weather archive"
  | noAddressFound address => "no address found for " ++ address
  | missingKey => "no geocoding API key configured (set WQ_GEOCODE_API_KEY or geocode_api_key)"

structure Response where
  status : Nat
  body : String
deriving DecidableEq, Repr

/-- What becomes of a request for an address: a response, or nothing when it could not be
delivered. -/
abbrev Transport := Address → Option String → Option Response

def Transport.offline : Transport := fun _ _ => none

/-- The reason that the body of a refusal gives. -/
def refusalReason? (body : String) : Option String := do
  let m ← (← Json.parse? body).members? ["reason"]
  (m.nullable "reason" Json.toText?).join

def fetch (transport : Transport) (service : Service) (request : Request) :
    Except ServiceError String :=
  let address := request.address?
  match address.bind fun address => transport address request.authorization with
  | none => .error (.unreachable service address)
  | some response =>
    if 200 ≤ response.status && response.status < 300 then .ok response.body
    else .error (.status service response.status (refusalReason? response.body))

end Weather

end Almanac
