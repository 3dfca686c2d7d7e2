import Almanac.Decimal.Binary

/-!
The numeral of a float has the fewest digits that read back, and among those it is the nearest
to the exact value. For 1, 2, … 17 digits the two neighbours of the value on that decimal grid
are tried; the first grid with a hit gives the numeral.
-/

namespace Almanac.Decimal

inductive Tie where
  | up
  | even
deriving DecidableEq, Repr

/-- The value `0.d₁d₂…dₙ * 10 ^ point`, with no zero at the end. -/
structure Numeral where
  digits : List Char
  point : Int
deriving DecidableEq, Repr

def Binary.magnitude (b : Binary) : Int :=
  -- The least power of ten above the value is near an estimate of its decimal logarithm.
  let estimate := (Nat.log2 b.mantissa + b.exponent) * 30103 / 100000
  (([-1, 0, 1, 2].map (estimate + ·)).find? fun k =>
    compareScaled 1 k b.mantissa b.exponent == .gt).getD (estimate + 3)

/-- The largest multiple of `10 ^ k` that is not above the value, in units of `10 ^ k`. -/
def Binary.floorOn (b : Binary) (k : Int) : Nat :=
  b.mantissa * twoTo b.exponent.toNat * tenTo (-k).toNat /
    (twoTo (-b.exponent).toNat * tenTo k.toNat)

def Binary.nearer (b : Binary) (tie : Tie) (below : Nat) (k : Int) : Nat :=
  match compareScaled (2 * below + 1) k (2 * b.mantissa) b.exponent with
  | .gt => below
  | .lt => below + 1
  | .eq =>
    match tie with
    | .up => below + 1
    | .even => if below % 2 = 0 then below else below + 1

def Binary.onGrid (b : Binary) (tie : Tie) (k : Int) : Option Scaled :=
  let below := b.floorOn k
  match b.readsBack ⟨below, k⟩, b.readsBack ⟨below + 1, k⟩ with
  | true, true => some ⟨b.nearer tie below k, k⟩
  | true, false => some ⟨below, k⟩
  | false, true => some ⟨below + 1, k⟩
  | false, false => none

def Scaled.toNumeral (d : Scaled) : Numeral :=
  let digits := Nat.toDigits 10 d.digits
  ⟨(digits.reverse.dropWhile (· = '0')).reverse, digits.length + d.exponent⟩

def Binary.exact (b : Binary) : Scaled :=
  let places := (-b.exponent).toNat
  ⟨b.mantissa * twoTo b.exponent.toNat * Nat.pow 5 places, -places⟩

def Binary.shortest (b : Binary) (tie : Tie) : Numeral :=
  let top := b.magnitude
  let found := (List.range 17).findSome? fun n : Nat => b.onGrid tie (top - (n + 1))
  -- Without a hit the value would be written in full.
  (found.getD b.exact).toNumeral

end Almanac.Decimal
