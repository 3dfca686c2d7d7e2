import Almanac.Decimal.Reading
import Almanac.Decimal.Layout

/-!
What the rows of a weather dataset measure. Most have a unit, which is written right after the
value. The row of weather codes has none; its codes have names, those of the WMO table of present
weather.
-/

namespace Almanac.Weather

def codeRow : String := "weather_code"

def unit : String → String
  | "temperature_max" | "temperature_min" => "°"
  | "precipitation_sum" => "in"
  | "wind_speed_max" => "mph"
  | "precipitation_probability_max" => "%"
  | _ => ""

def codeNames : List (Int × String) :=
  [(0, "Clear Sky"), (1, "Mainly Clear"), (2, "Partly Cloudy"), (3, "Overcast"), (45, "Fog"),
    (48, "Fog (depositing rime)"), (51, "Drizzle (Light)"), (53, "Drizzle (Moderate)"),
    (55, "Drizzle (Heavy)"), (56, "Freezing Drizzle (Light)"), (57, "Freezing Drizzle (Heavy)"),
    (61, "Rain (Light)"), (63, "Rain (Moderate)"), (65, "Rain (Heavy)"), (71, "Snow (Light)"),
    (73, "Snow (Moderate)"), (75, "Snow (Heavy)"), (77, "Snow (grains)"),
    (80, "Rain Shower (Light)"), (81, "Rain Shower (Moderate)"), (82, "Rain Shower (Heavy)"),
    (85, "Snow Shower (Light)"), (86, "Snow Shower (Heavy)"), (95, "Thunderstorm"),
    (96, "Thunderstorm with Hail (Slight)"), (99, "Thunderstorm with Hail (Heavy)")]

def codeName? (code : Int) : Option String :=
  (codeNames.find? fun entry => entry.1 = code).map Prod.snd

/-- The code a value stands for; an average of codes loses its fraction. -/
def codeOf (value : Float) : Int := Decimal.wholePart value

def codeLabel (code : Int) : String :=
  toString code ++ " - " ++ (codeName? code).getD "Unknown"

/-- A value as a table of the dataset shows it: a weather code with its name, anything else with
its unit. -/
def cell (row raw : String) : String :=
  if row = codeRow then
    match Decimal.readFinite? raw.toList with
    | some value => codeLabel (codeOf value)
    | none => raw
  else raw ++ unit row

end Almanac.Weather
