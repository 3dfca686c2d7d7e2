/-!
A finite float stands for an exact binary number. It also stands for an interval: the reals that
round to it. A decimal numeral reads back as the float exactly when it lies in that interval,
which is decided here in natural-number arithmetic.
-/

namespace Almanac.Decimal

def twoTo (n : Nat) : Nat := Nat.pow 2 n

def tenTo (n : Nat) : Nat := Nat.pow 10 n

/-- The value `mantissa * 2 ^ exponent`. -/
structure Binary where
  mantissa : Nat
  exponent : Int
  /-- The gap to the value below is half the gap to the value above. -/
  narrowBelow : Bool

/-- The value `digits * 10 ^ exponent`. -/
structure Scaled where
  digits : Nat
  exponent : Int
deriving DecidableEq, Repr

def Binary.ofFloat (x : Float) : Binary :=
  let bits := x.toBits.toNat
  let power : Nat := bits / twoTo 52 % twoTo 11
  let fraction : Nat := bits % twoTo 52
  if power = 0 then ⟨fraction, -1074, false⟩
  else ⟨twoTo 52 + fraction, (power : Int) - 1075, fraction == 0 && power > 1⟩

def isNegative (x : Float) : Bool := x.toBits.toNat / twoTo 63 = 1

/-- The part of a float before the decimal point, kept within the signed 64-bit integers. What is
not a number counts as zero. -/
def wholePart (x : Float) : Int :=
  if x.isNaN then 0
  else
    let b := Binary.ofFloat x
    let size := b.mantissa * twoTo b.exponent.toNat / twoTo (-b.exponent).toNat
    let bound := twoTo 63
    if isNegative x then -((if size < bound then size else bound : Nat) : Int)
    else (if size < bound then size else bound - 1 : Nat)

/-- The whole number nearest to the size of a float, a half going up. What is not a number counts
as zero. -/
def nearestWhole (x : Float) : Nat :=
  if x.isNaN then 0
  else
    let b := Binary.ofFloat x
    let scale := twoTo (-b.exponent).toNat
    (2 * b.mantissa * twoTo b.exponent.toNat + scale) / (2 * scale)

def compareScaled (a : Nat) (i : Int) (b : Nat) (j : Int) : Ordering :=
  compare (a * tenTo i.toNat * twoTo (-j).toNat) (b * twoTo j.toNat * tenTo (-i).toNat)

/-- The ends of the interval belong to it exactly when the mantissa is even. -/
def Binary.readsBack (b : Binary) (d : Scaled) : Bool :=
  let low := if b.narrowBelow then 4 * b.mantissa - 1 else 4 * b.mantissa - 2
  let high := 4 * b.mantissa + 2
  let closed := b.mantissa % 2 == 0
  let fromLow := compareScaled d.digits d.exponent low (b.exponent - 2)
  let toHigh := compareScaled d.digits d.exponent high (b.exponent - 2)
  (fromLow == .gt || (closed && fromLow == .eq)) && (toHigh == .lt || (closed && toHigh == .eq))

end Almanac.Decimal
