import Almanac.Json.Reader

/-!
Reading typed values out of JSON. A structure is given as a record of its fields or as the list
of its fields in declaration order. In a record no known field may stand twice, and fields that
the structure does not have are passed over unread.
-/

namespace Almanac.Json

def toText? : Json → Option String
  | .text s => some s
  | _ => none

def toBool? : Json → Option Bool
  | .bool b => some b
  | _ => none

def toFloat? : Json → Option Float
  | .int n => some (Float.ofInt n)
  | .real x => some x
  | _ => none

def toInt? : Json → Option Int
  -- Numerals are whole up to twice this bound.
  | .int n => if 2 * n < wordLimit then some n else none
  | _ => none

def toNat? : Json → Option Nat
  | .int n => if 0 ≤ n then some n.toNat else none
  | _ => none

def toList? {α : Type} (decode : Json → Option α) : Json → Option (List α)
  | .list items => items.mapM decode
  | _ => none

def toOption? {α : Type} (decode : Json → Option α) : Json → Option (Option α)
  | .null => some none
  | value => (decode value).map some

/-- The entries of a record whose keys are free; of two with one key the later one counts. -/
def toEntries? {α : Type} (decode : Json → Option α) : Json → Option (List (String × α))
  | .record fields =>
    (fields.mapM fun field => (decode field.2).map fun value => (field.1, value)).map Keyed.ofList
  | _ => none

def toAny? (value : Json) : Option Json := if value.isReadable then some value else none

/-- The word for one of several constant cases, alone or as the key of a null field. -/
def toWord? : Json → Option String
  | .text s => some s
  | .record [(key, .null)] => some key
  | _ => none

structure Members where
  present : List (String × Json)
  /-- The structure was given as a list, in which a field cannot be skipped. -/
  listed : Bool

def repeats (names : List String) (fields : List (String × Json)) : Bool :=
  names.any fun name => (fields.countP fun field => field.1 = name) > 1

def members? (names : List String) : Json → Option Members
  | .record fields =>
    if repeats names fields then none
    else some ⟨fields.filter fun field => names.contains field.1, false⟩
  | .list items =>
    if names.length < items.length then none else some ⟨names.zip items, true⟩
  | _ => none

def exactMembers? (names : List String) : Json → Option Members
  | .record fields =>
    if fields.all fun field => names.contains field.1 then members? names (.record fields) else none
  | value => members? names value

/-- The word that tells which of several cases a value holds: a field of a record, or the first
item of a list. -/
def tag? (name : String) : Json → Option String
  | .record fields =>
    if repeats [name] fields then none else (Keyed.find? name fields).bind toText?
  | .list (first :: _) => first.toText?
  | _ => none

namespace Members

variable {α : Type}

def get? (m : Members) (name : String) : Option Json := Keyed.find? name m.present

def required (m : Members) (name : String) (decode : Json → Option α) : Option α :=
  (m.get? name).bind decode

def orElse (m : Members) (name : String) (default : α) (decode : Json → Option α) : Option α :=
  match m.get? name with
  | none => some default
  | some value => decode value

def nullable (m : Members) (name : String) (decode : Json → Option α) : Option (Option α) :=
  match m.get? name with
  -- Only a record can do without the field.
  | none => if m.listed then none else some none
  | some value => toOption? decode value

end Members

end Almanac.Json
