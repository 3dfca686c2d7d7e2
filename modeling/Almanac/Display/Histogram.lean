import Almanac.Decimal.Layout
import Almanac.Evaluation.Output

/-!
A histogram as lines of text: one bar a day, drawn in proportion to the largest magnitude. Values
that are not numbers have no bar and do not count for the largest.
-/

namespace Almanac.Bar

def fullLength : Nat := 40

def peak (bars : List Bar) : Float :=
  bars.foldl (fun peak bar => if peak < bar.value.abs then bar.value.abs else peak) 0

def length (peak : Float) (bar : Bar) : Nat :=
  if 0 < peak then Decimal.nearestWhole (bar.value.abs / peak * Float.ofNat fullLength) else 0

def line (peak : Float) (bar : Bar) : String :=
  bar.date ++ " │" ++ String.ofList (List.replicate (bar.length peak) '█') ++ " " ++
    Decimal.text bar.value

def lines (bars : List Bar) : List String := bars.map (line (peak bars))

end Almanac.Bar
