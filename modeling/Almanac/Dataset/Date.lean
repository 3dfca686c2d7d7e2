import Almanac.Text.Pieces
import Almanac.Decimal.Binary
import Almanac.Decimal.Reading
import Almanac.Json.Decoding

/-!
A date is named by its place among the days of a dataset or by its ISO form. Places count from
zero, and negative places count back from the last day.
-/

namespace Almanac

/-- Four digits, two digits and two digits with hyphens between them. The calendar is not
consulted. -/
def isIsoDate (text : String) : Bool :=
  match text.toList with
  | [y₁, y₂, y₃, y₄, h₁, m₁, m₂, h₂, d₁, d₂] =>
    [y₁, y₂, y₃, y₄, m₁, m₂, d₁, d₂].all Char.isDigit && h₁ = '-' && h₂ = '-'
  | _ => false

/-- Places are signed integers of 64 bits, so that they count fewer days than this. -/
def placeLimit : Nat := Decimal.twoTo 63

/-- The position a place refers to among so many days. There is none among more days than places
can count. -/
def relativeIndex (index : Int) (count : Nat) : Option Nat :=
  let position := if index < 0 then count + index else index
  if count < placeLimit && 0 ≤ position && position < count then some position.toNat else none

inductive DateToken where
  | index (place : Int)
  | iso (date : String)
deriving DecidableEq, Repr

namespace DateToken

/-- An ISO date, or an integer of one or two characters, or of three when it starts with a
minus. -/
def parse? (text : String) : Option DateToken :=
  let cs := text.toList
  match Text.byteLength text with
  | 10 => if isIsoDate text then some (.iso text) else none
  | 1 | 2 => (Decimal.readInteger? cs).map .index
  | 3 => if cs.head? = some '-' then (Decimal.readInteger? cs).map .index else none
  | _ => none

def position? (dates : List String) : DateToken → Option Nat
  | .index place => relativeIndex place dates.length
  | .iso date => dates.findIdx? (· = date)

def display : DateToken → String
  | .index place => toString place
  | .iso date => date

def toJson : DateToken → Json
  | .index place => .record [("kind", .text "index"), ("value", .int place)]
  | .iso date => .record [("kind", .text "iso"), ("value", .text date)]

def ofJson? (json : Json) : Option DateToken := do
  let m ← json.members? ["kind", "value"]
  match ← m.required "kind" Json.toText? with
  | "index" => (m.required "value" Json.toInt?).map .index
  | "iso" => (m.required "value" Json.toText?).map .iso
  | _ => none

end DateToken

end Almanac
