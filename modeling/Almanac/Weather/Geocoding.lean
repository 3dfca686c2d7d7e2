import Almanac.Weather.Service

/-!
The geocoding service finds the coordinates of an address. Of several matches the first one
counts.
-/

namespace Almanac.Weather

def coordinatesOfJson? (json : Json) : Option Coordinates := do
  let m ← json.members? ["latitude", "longitude"]
  pure ⟨← m.required "latitude" Json.toFloat?, ← m.required "longitude" Json.toFloat?⟩

def matches? (body : Json) : Option (List Coordinates) := do
  let m ← body.members? ["addresses"]
  m.orElse "addresses" [] (Json.toList? coordinatesOfJson?)

def decodePlace (body address : String) : Except ServiceError Coordinates :=
  match (Json.parse? body).bind matches? with
  | none => .error (.malformed .geocoding)
  | some [] => .error (.noAddressFound address)
  | some (place :: _) => .ok place

def findPlace (transport : Transport) (url : String) (key : Option String) (address : String) :
    Except ServiceError Coordinates :=
  match key with
  | none => .error .missingKey
  | some key => do
    let body ← fetch transport .geocoding ⟨url, [("query", address)], some key⟩
    decodePlace body address

end Almanac.Weather
