import Almanac.Json.Decoding

/-!
A parameter of a command. Its kind decides how an argument is checked and completed. An enum
parameter carries the one word that it admits, and a leading enum parameter tells the overloads
of a command apart.
-/

namespace Almanac

inductive ParamKind where
  | row
  | date
  | enum
  | string
  | int
  | number
  | subQuery
  | unsupported
deriving DecidableEq, Repr

namespace ParamKind

def word : ParamKind → String
  | row => "row"
  | date => "date"
  | enum => "enum"
  | string => "string"
  | int => "int"
  | number => "number"
  | subQuery => "subquery"
  | unsupported => "unsupported"

/-- A word that names no kind is the kind that nothing can check. -/
def ofWord : String → ParamKind
  | "row" => row
  | "date" => date
  | "enum" => enum
  | "string" => string
  | "int" => int
  | "number" => number
  | "subquery" => subQuery
  | _ => unsupported

theorem ofWord_word (kind : ParamKind) : ofWord kind.word = kind := by
  cases kind <;> rfl

def ofJson? (value : Json) : Option ParamKind := value.toWord?.map ofWord

end ParamKind

structure Param where
  name : String
  kind : ParamKind
  optional : Bool := false
  /-- The word that an enum parameter admits. -/
  value : Option String := none
deriving DecidableEq, Repr

namespace Param

def required (name : String) (kind : ParamKind) : Param := ⟨name, kind, false, none⟩

def omittable (name : String) (kind : ParamKind) : Param := ⟨name, kind, true, none⟩

def leading (name word : String) : Param := ⟨name, .enum, false, some word⟩

def bracketed (p : Param) : String :=
  if p.optional then "(" ++ p.name ++ ")" else "[" ++ p.name ++ "]"

def toJson (p : Param) : Json :=
  .record <|
    [("name", .text p.name), ("type", .text p.kind.word), ("optional", .bool p.optional)] ++
      Json.fieldIfSome "value" .text p.value

def ofJson? (json : Json) : Option Param := do
  let m ← json.members? ["name", "type", "optional", "value"]
  let name ← m.required "name" Json.toText?
  let kind ← m.required "type" ParamKind.ofJson?
  let optional ← m.orElse "optional" false Json.toBool?
  let value ← m.orElse "value" none (Json.toOption? Json.toText?)
  pure ⟨name, kind, optional, value⟩

end Param

end Almanac
