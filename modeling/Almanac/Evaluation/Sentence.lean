import Almanac.Dataset.Aggregate
import Almanac.Weather.Service
import Almanac.Weather.Unit

/-!
The sentences that report comparisons. Two values are related exactly, without a tolerance; where
one of them is not a number, the sentence says "less than".
-/

namespace Almanac.Sentence

def relation (left right : Float) : String :=
  if left == right then "equal to" else if right < left then "greater than" else "less than"

def amount (row : String) (value : Float) : String := Decimal.text value ++ Weather.unit row

def subject (kind : Aggregate) (row : String) : String := kind.longName ++ " of " ++ row

def withArchive (kind : Aggregate) (row : String) (value : Float) (place : Coordinates)
    (archived : Float) : String :=
  "In the given data the " ++ subject kind row ++ " in the dataset was " ++ amount row value ++
    " which was " ++ relation value archived ++ ", at latitude " ++
    Decimal.text place.latitude ++ " and longitude " ++ Decimal.text place.longitude ++ " the " ++
    subject kind row ++ " was " ++ amount row archived

def ofBoth (kind₁ : Aggregate) (row₁ : String) (value₁ : Float) (kind₂ : Aggregate)
    (row₂ : String) (value₂ : Float) : String :=
  "In the first given query the " ++ subject kind₁ row₁ ++ " in the dataset was " ++
    amount row₁ value₁ ++ " which was " ++ relation value₁ value₂ ++
    " the second query, the " ++ subject kind₂ row₂ ++ " was " ++ amount row₂ value₂

end Almanac.Sentence
