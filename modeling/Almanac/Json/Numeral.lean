import Almanac.Json.Value
import Almanac.Decimal.Reading

/-!
JSON numerals. A numeral without fraction and exponent that fits into 64 bits is whole. For any
other numeral the leading digits that fit into 64 bits are taken as a float, which one more float
operation scales by the power of ten. A numeral above the range of floats cannot be read.
-/

namespace Almanac.Json

def wordLimit : Nat := 18446744073709551616

structure Numeral where
  negative : Bool
  whole : List Char
  fraction : List Char
  power : Int
  /-- Neither fraction nor exponent is written. -/
  plain : Bool

def readFraction? : List Char → Option (List Char × List Char)
  | '.' :: rest =>
    let digits := rest.takeWhile Char.isDigit
    if digits.isEmpty then none else some (digits, rest.dropWhile Char.isDigit)
  | cs => some ([], cs)

def readPower? : List Char → Option (Int × List Char)
  | c :: rest =>
    if c = 'e' || c = 'E' then
      let (negative, digits) := Decimal.splitSign rest
      let power := digits.takeWhile Char.isDigit
      if power.isEmpty then none
      else
        let value : Int := Decimal.naturalOf power
        some (if negative then -value else value, digits.dropWhile Char.isDigit)
    else some (0, c :: rest)
  | [] => some (0, [])

def readNumeral? (cs : List Char) : Option (Numeral × List Char) := do
  let negative := cs.head? == some '-'
  let unsigned := if negative then cs.drop 1 else cs
  let whole := unsigned.takeWhile Char.isDigit
  -- A zero at the front must be the only digit before the point.
  if whole.isEmpty || (whole.head? == some '0' && whole.length > 1) then none
  let (fraction, afterFraction) ← readFraction? (unsigned.dropWhile Char.isDigit)
  let (power, rest) ← readPower? afterFraction
  let written := unsigned.length - rest.length
  pure (⟨negative, whole, fraction, power, written == whole.length⟩, rest)

/-- Appends digits to a significand as long as it fits into 64 bits; the rest is left over. -/
def absorb (significand : Nat) : List Char → Nat × List Char
  | [] => (significand, [])
  | d :: rest =>
    let next := 10 * significand + Decimal.digitValue d
    if next < wordLimit then absorb next rest else (significand, d :: rest)

def powerOfTen (power : Nat) : Float := Float.ofScientific 1 false power

/-- Scales a float by a power of ten; powers below `1e-308` take a step through that one. -/
def scale (x : Float) (power : Int) : Float :=
  if x == 0 then x
  else if 308 < power then 1 / 0
  else if 0 ≤ power then x * powerOfTen power.toNat
  else if -308 ≤ power then x / powerOfTen power.natAbs
  else if -616 ≤ power then x / powerOfTen 308 / powerOfTen (power + 308).natAbs
  else 0

def Numeral.toFloat (n : Numeral) : Float :=
  let (leading, wholeLeft) := absorb 0 n.whole
  let (significand, fractionLeft) := absorb leading n.fraction
  let used : Int := n.fraction.length - fractionLeft.length
  let magnitude := scale (Float.ofNat significand) (n.power + wholeLeft.length - used)
  if n.negative then -magnitude else magnitude

def Numeral.toJson (n : Numeral) : Json :=
  let magnitude := Decimal.naturalOf n.whole
  if n.plain && !n.negative && magnitude < wordLimit then .int magnitude
  else if n.plain && n.negative && 0 < magnitude && 2 * magnitude ≤ wordLimit then .int (-magnitude)
  else if n.toFloat.isFinite then .real n.toFloat
  else .unreadable

end Almanac.Json
