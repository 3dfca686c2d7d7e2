import Almanac.Table.Param

/-!
A command of the query language: its word, its parameters in order, and whether it may stand as
a sub-query. Commands of one name are overloads, told apart by the word of a leading enum
parameter, the discriminant.
-/

namespace Almanac

structure Command where
  name : String
  description : String
  canSubQuery : Bool := false
  params : List Param := []
deriving DecidableEq, Repr

namespace Command

def discriminant (c : Command) : Option String :=
  match c.params with
  | [] => none
  | p :: _ => if p.kind = .enum then p.value else none

/-- The parameters that take one token each. -/
def positional (c : Command) : List Param := c.params.filter fun p => p.kind ≠ .subQuery

def subQueryParams (c : Command) : List Param := c.params.filter fun p => p.kind = .subQuery

def subQuerySlots (c : Command) : Nat := c.subQueryParams.length

def hasSubQueryTail (c : Command) : Bool :=
  c.params.getLast?.any fun p => p.kind = .subQuery

def firstSubQuery? (c : Command) : Option Nat := c.params.findIdx? fun p => p.kind = .subQuery

def required (c : Command) : List Param := c.positional.filter fun p => !p.optional

def displayName (c : Command) : String :=
  match c.discriminant with
  | none => c.name
  | some word => c.name ++ " (" ++ word ++ ")"

def insertion (c : Command) : String :=
  match c.discriminant with
  | none => c.name
  | some word => c.name ++ " " ++ word

def arityLabel (c : Command) : String :=
  let least := c.required.length
  let most := c.positional.length
  let count := if least = most then toString least else toString least ++ "-" ++ toString most
  let noun := if most = 1 then "argument" else "arguments"
  let arguments := count ++ " " ++ noun
  match c.subQuerySlots with
  | 0 => arguments
  | 1 => arguments ++ " + subquery"
  | n => arguments ++ " + " ++ toString n ++ " subqueries"

/-- The command as it is typed, with a name in brackets for each argument. The discriminant of
an overload is written as it stands. -/
def usage (c : Command) : String :=
  let shown :=
    match c.discriminant with
    | none => c.params.map Param.bracketed
    | some word => word :: (c.params.drop 1).map Param.bracketed
  " ".intercalate (c.name :: shown)

def visibleIn (c : Command) (nested : Bool) : Bool := c.canSubQuery || !nested

def toJson (c : Command) : Json :=
  .record
    [("name", .text c.name), ("description", .text c.description),
      ("canSubQuery", .bool c.canSubQuery), ("params", .list (c.params.map Param.toJson))]

def ofJson? (json : Json) : Option Command := do
  let m ← json.members? ["name", "description", "canSubQuery", "params"]
  let name ← m.required "name" Json.toText?
  let description ← m.required "description" Json.toText?
  let canSubQuery ← m.orElse "canSubQuery" false Json.toBool?
  let params ← m.orElse "params" [] (Json.toList? Param.ofJson?)
  pure ⟨name, description, canSubQuery, params⟩

end Command

end Almanac
