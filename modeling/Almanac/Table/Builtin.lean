import Almanac.Table.Basic

/-!
The commands that are there when no other table is given.
-/

namespace Almanac.CommandTable

open ParamKind Param

def bare (name description : String) : Command := ⟨name, description, false, []⟩

def rowAndDates : List Param := [required "row" row, omittable "start" date, omittable "end" date]

def aggregate (name description : String) : Command := ⟨name, description, true, rowAndDates⟩

def compare (location via : String) (params : List Param) : Command where
  name := "compare"
  description :=
    "Query the data and compare it with online data at location (using " ++ via ++ ")"
  params := leading "location type" location :: params

def builtin : CommandTable :=
  ofCommands
    [ bare "help"
        ("Explains how to use this application, and displays documentation for queries and " ++
          "their respective parameter types"),
      bare "input" "Upload a file to run queries",
      bare "clear" "Clears the chat history",
      aggregate "min" "Query the minimum value over the dataset between two dates",
      aggregate "max" "Query the maximum value over the dataset between two dates",
      aggregate "avg" "Query the avg value over the dataset between two dates",
      ⟨"value", "Query the value of a specific date", true,
        [required "row" row, required "day" date]⟩,
      bare "table" "Query the all values of the input and return in a table",
      compare "coord" "latitude and longitude"
        [required "latitude" number, required "longitude" number, required "subquery" subQuery],
      compare "dataset" "latitude and longitude"
        [required "1st query" subQuery, required "2nd query" subQuery],
      compare "zip" "zip code" [required "zip code" int, required "subquery" subQuery],
      compare "city" "city name" [required "city name" string, required "subquery" subQuery],
      ⟨"histogram", "Generate a histogram of a given data point between two points", false,
        rowAndDates⟩ ]

end Almanac.CommandTable
