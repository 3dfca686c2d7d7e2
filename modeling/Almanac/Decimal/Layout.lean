import Almanac.Decimal.Shortest

/-!
How a numeral is laid out on the page: with a decimal point alone, or with an exponent. A layout
holds every decision that the digits leave open.
-/

namespace Almanac.Decimal

structure Layout where
  /-- The leading digit's power of ten is such that no exponent is written. -/
  positional : Int → Bool
  /-- Whole numbers end in `.0`. -/
  pointZero : Bool
  tie : Tie

/-- The layout of results: never an exponent, and whole numbers without a fraction. -/
def plain : Layout where
  positional _ := true
  pointZero := false
  tie := .up

def zeros (n : Int) : List Char := List.replicate n.toNat '0'

def Layout.whole (layout : Layout) : List Char := if layout.pointZero then ['.', '0'] else []

def Layout.withPoint (layout : Layout) (n : Numeral) : List Char :=
  if n.point ≤ 0 then
    '0' :: '.' :: zeros (-n.point) ++ n.digits
  else if n.digits.length ≤ n.point then
    n.digits ++ zeros (n.point - n.digits.length) ++ layout.whole
  else
    n.digits.take n.point.toNat ++ '.' :: n.digits.drop n.point.toNat

def withExponent (n : Numeral) : List Char :=
  let power := n.point - 1
  let fraction := n.digits.drop 1
  n.digits.take 1 ++ (if fraction.isEmpty then [] else '.' :: fraction) ++
    'e' :: (if power < 0 then '-' else '+') :: Nat.toDigits 10 power.natAbs

def Layout.magnitude (layout : Layout) (x : Float) : List Char :=
  let b := Binary.ofFloat x
  if b.mantissa = 0 then
    '0' :: layout.whole
  else
    let n := b.shortest layout.tie
    if layout.positional (n.point - 1) then layout.withPoint n else withExponent n

def Layout.render (layout : Layout) (x : Float) : String :=
  String.ofList ((if isNegative x then ['-'] else []) ++ layout.magnitude x)

def text (x : Float) : String :=
  if x.isNaN then "NaN"
  else if x.isInf then (if isNegative x then "-inf" else "inf")
  else plain.render x

end Almanac.Decimal
