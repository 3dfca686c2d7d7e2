/-!
The reductions of a run of daily values to one number.
-/

namespace Almanac

inductive Aggregate where
  | min
  | max
  | avg
  | value
deriving DecidableEq, Repr

namespace Aggregate

def ofWord? : String → Option Aggregate
  | "min" => some min
  | "max" => some max
  | "avg" => some avg
  | "value" => some value
  | _ => none

def word : Aggregate → String
  | min => "min"
  | max => "max"
  | avg => "avg"
  | value => "value"

def longName : Aggregate → String
  | min => "minimum"
  | max => "maximum"
  | avg => "average"
  | value => "value"

/-- The reduction of a run; an empty run has none. Averages add from left to right. -/
def reduce? (kind : Aggregate) : List Float → Option Float
  | [] => none
  | first :: rest =>
    some <|
      match kind with
      | min => rest.foldl (fun a b => if a ≤ b then a else b) first
      | max => rest.foldl (fun a b => if b ≤ a then a else b) first
      | avg => rest.foldl (· + ·) first / Float.ofNat (rest.length + 1)
      | value => first

end Aggregate

end Almanac
