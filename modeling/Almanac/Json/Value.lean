import Almanac.Keyed

/-!
JSON values. Numbers written without fraction and exponent are whole when they fit into 64 bits,
and every other number is a float. The fields of a record keep the order in which they stand, so
that a printed record shows them in the order its type declares.

A value can be well-formed without being readable: a number may lie above the range of floats, a
text may hold half of a surrogate pair, and a list or a record may stand too deep. Such a value
does no harm where nothing reads it.
-/

namespace Almanac

inductive Json where
  | null
  | bool (value : Bool)
  | int (value : Int)
  | real (value : Float)
  | text (value : String)
  | list (items : List Json)
  | record (fields : List (String × Json))
  | unreadable

namespace Json

mutual

/-- The same value with the fields of every record in key order; of two fields with one key the
later one is kept. -/
def sorted : Json → Json
  | .list items => .list (sortedItems items)
  | .record fields => .record (Keyed.ofList (sortedFields fields))
  | value => value

def sortedItems : List Json → List Json
  | [] => []
  | item :: rest => sorted item :: sortedItems rest

def sortedFields : List (String × Json) → List (String × Json)
  | [] => []
  | (key, value) :: rest => (key, sorted value) :: sortedFields rest

end

mutual

def isReadable : Json → Bool
  | .unreadable => false
  | .list items => areReadable items
  | .record fields => areFieldsReadable fields
  | _ => true

def areReadable : List Json → Bool
  | [] => true
  | item :: rest => isReadable item && areReadable rest

def areFieldsReadable : List (String × Json) → Bool
  | [] => true
  | (_, value) :: rest => isReadable value && areFieldsReadable rest

end

mutual

def depth : Json → Nat
  | .list items => depthItems items + 1
  | .record fields => depthFields fields + 1
  | _ => 1

def depthItems : List Json → Nat
  | [] => 0
  | item :: rest => if depthItems rest ≤ depth item then depth item else depthItems rest

def depthFields : List (String × Json) → Nat
  | [] => 0
  | (_, value) :: rest => if depthFields rest ≤ depth value then depth value else depthFields rest

end

def ofOption {α : Type} (encode : α → Json) : Option α → Json
  | none => .null
  | some value => encode value

def fieldIfSome {α : Type} (key : String) (encode : α → Json) : Option α → List (String × Json)
  | none => []
  | some value => [(key, encode value)]

/-- A float as a JSON number; a float that is not finite has none and is null. -/
def ofFloat (x : Float) : Json := if x.isFinite then .real x else .null

def ofNat (n : Nat) : Json := .int n

def ofTexts (texts : List String) : Json := .list (texts.map .text)

end Json

end Almanac
