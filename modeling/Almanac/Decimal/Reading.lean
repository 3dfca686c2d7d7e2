/-!
Reading numbers from text. A number is an optional sign and either digits with at most one
decimal point among or around them and an optional exponent, or one of the words `inf`,
`infinity` and `nan` in any case. Nothing may stand before or after it.
-/

namespace Almanac.Decimal

def digitValue (c : Char) : Nat := c.toNat - '0'.toNat

def naturalOf (digits : List Char) : Nat :=
  digits.foldl (fun n c => 10 * n + digitValue c) 0

def splitSign : List Char → Bool × List Char
  | '-' :: rest => (true, rest)
  | '+' :: rest => (false, rest)
  | cs => (false, cs)

def readInteger? (cs : List Char) : Option Int :=
  let (negative, digits) := splitSign cs
  if digits.isEmpty || !digits.all Char.isDigit then none
  else if negative then some (-(naturalOf digits : Int))
  else some (naturalOf digits)

/-- The float nearest to `digits * 10 ^ exponent`, where `count` digits were written. Powers far
outside the range of floats are decided without computing them. -/
def nearestFloat (digits count : Nat) (exponent : Int) : Float :=
  if digits = 0 then 0
  else if 400 ≤ exponent then 1 / 0
  else if exponent + count ≤ -400 then 0
  else Float.ofScientific digits (exponent < 0) exponent.natAbs

def readPower? : List Char → Option Int
  | [] => some 0
  | c :: rest => if c = 'e' || c = 'E' then readInteger? rest else none

def splitFraction : List Char → List Char × List Char
  | '.' :: rest => (rest.takeWhile Char.isDigit, rest.dropWhile Char.isDigit)
  | cs => ([], cs)

def readMagnitude? (cs : List Char) : Option Float :=
  let whole := cs.takeWhile Char.isDigit
  let (fraction, rest) := splitFraction (cs.dropWhile Char.isDigit)
  let digits := whole ++ fraction
  if digits.isEmpty then none
  else (readPower? rest).map fun power =>
    nearestFloat (naturalOf digits) digits.length (power - fraction.length)

def readWord? (cs : List Char) : Option Float :=
  let word := cs.map Char.toLower
  if word = "inf".toList || word = "infinity".toList then some (1 / 0)
  else if word = "nan".toList then some (0 / 0)
  else none

def readFloat? (cs : List Char) : Option Float :=
  let (negative, rest) := splitSign cs
  let magnitude := (readWord? rest).orElse fun _ => readMagnitude? rest
  magnitude.map fun x => if negative then -x else x

def readFinite? (cs : List Char) : Option Float := (readFloat? cs).filter Float.isFinite

end Almanac.Decimal
