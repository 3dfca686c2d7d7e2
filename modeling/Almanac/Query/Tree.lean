import Almanac.Dataset.Date
import Almanac.Span
import Almanac.Table.Param

/-!
A query as a tree: the command word, the variant that an enum-led overload stands for, the
arguments in the order of their parameters, and the sub-queries. Arguments keep the text that
was typed beside the value that it stands for.
-/

namespace Almanac

inductive ArgumentValue where
  | row (name : String)
  | date (token : DateToken)
  | number (value : Float)
  | text (content : String)
  | enum (word : String)
deriving DecidableEq

structure Argument where
  name : String
  kind : ParamKind
  value : ArgumentValue
  raw : String
  span : Span
deriving DecidableEq

structure Query where
  command : String
  variant : Option String
  args : List Argument
  subQueries : List Query
  span : Span

namespace ArgumentValue

def tagged (kind : String) (value : Json) : Json :=
  .record [("type", .text kind), ("value", value)]

def toJson : ArgumentValue → Json
  | row name => tagged "row" (.text name)
  | date token => tagged "date" token.toJson
  | number value => tagged "number" (.ofFloat value)
  | text content => tagged "text" (.text content)
  | enum word => tagged "enum" (.text word)

def ofJson? (json : Json) : Option ArgumentValue := do
  let m ← json.members? ["type", "value"]
  match ← m.required "type" Json.toText? with
  | "row" => (m.required "value" Json.toText?).map row
  | "date" => (m.required "value" DateToken.ofJson?).map date
  | "number" => (m.required "value" Json.toFloat?).map number
  | "text" => (m.required "value" Json.toText?).map text
  | "enum" => (m.required "value" Json.toText?).map enum
  | _ => none

end ArgumentValue

namespace Argument

def toJson (a : Argument) : Json :=
  .record
    [("name", .text a.name), ("kind", .text a.kind.word), ("value", a.value.toJson),
      ("raw", .text a.raw), ("span", a.span.toJson)]

def ofJson? (json : Json) : Option Argument := do
  let m ← json.members? ["name", "kind", "value", "raw", "span"]
  let name ← m.required "name" Json.toText?
  let kind ← m.required "kind" ParamKind.ofJson?
  let value ← m.required "value" ArgumentValue.ofJson?
  let raw ← m.required "raw" Json.toText?
  let span ← m.required "span" Span.ofJson?
  pure ⟨name, kind, value, raw, span⟩

end Argument

namespace Query

def arg? (q : Query) (name : String) : Option Argument := q.args.find? fun a => a.name = name

def row? (q : Query) (name : String) : Option String :=
  match (q.arg? name).map Argument.value with
  | some (.row value) => some value
  | _ => none

def date? (q : Query) (name : String) : Option DateToken :=
  match (q.arg? name).map Argument.value with
  | some (.date value) => some value
  | _ => none

def number? (q : Query) (name : String) : Option Float :=
  match (q.arg? name).map Argument.value with
  | some (.number value) => some value
  | _ => none

def text? (q : Query) (name : String) : Option String :=
  match (q.arg? name).map Argument.value with
  | some (.text value) => some value
  | _ => none

mutual

def toJson : Query → Json
  | ⟨command, variant, args, subQueries, span⟩ =>
    .record <|
      [("command", .text command)] ++ Json.fieldIfSome "variant" .text variant ++
        [("args", .list (args.map Argument.toJson))] ++
        (match toJsonList subQueries with
          | [] => []
          | encoded => [("sub_queries", .list encoded)]) ++
        [("span", span.toJson)]

def toJsonList : List Query → List Json
  | [] => []
  | q :: rest => toJson q :: toJsonList rest

end

/-- Reads a query that is nested at most so many levels deep. -/
def ofJsonWithin? : Nat → Json → Option Query
  | 0, _ => none
  | levels + 1, json => do
    let m ← json.members? ["command", "variant", "args", "sub_queries", "span"]
    let command ← m.required "command" Json.toText?
    let variant ← m.orElse "variant" none (Json.toOption? Json.toText?)
    let args ← m.required "args" (Json.toList? Argument.ofJson?)
    let subQueries ← m.orElse "sub_queries" [] (Json.toList? (ofJsonWithin? levels))
    let span ← m.required "span" Span.ofJson?
    pure ⟨command, variant, args, subQueries, span⟩

def ofJson? (json : Json) : Option Query := ofJsonWithin? json.depth json

end Query

end Almanac
