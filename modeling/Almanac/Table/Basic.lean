import Almanac.Table.Command
import Almanac.Json.Printer

/-!
A command table lists the commands of a query language in order. A sound table has a word for
every enum parameter, sub-queries only at the end of a command and at most two of them, and no
two overloads of a name with the same discriminant. The overload that a query selects is found
through the first command for each name and discriminant.
-/

namespace Almanac

structure CommandTable where
  version : String
  commands : List Command
deriving DecidableEq, Repr

inductive TableError where
  | malformed
  | formatVersion (found : String)
  | ambiguousOverload (name : String) (discriminant : Option String)
  | missingEnumValue (command param : String)
  | misplacedSubQuery (command param : String)
  | tooManySubQueries (command : String) (count : Nat)
deriving DecidableEq, Repr

namespace CommandTable

/-- The version of the written form; tables of the same major version can be read. -/
def formatVersion : String := "1.0.0"

def ofCommands (commands : List Command) : CommandTable := ⟨formatVersion, commands⟩

def majorVersion (version : String) : List Char := version.toList.takeWhile (· ≠ '.')

end CommandTable

namespace TableError

def message : TableError → String
  | malformed => "invalid command table JSON"
  | formatVersion found =>
    "unsupported table format version " ++ found ++ " (expected " ++ CommandTable.formatVersion ++
      ")"
  | ambiguousOverload name discriminant =>
    let shared :=
      match discriminant with
      | none => "no discriminant"
      | some word => "'" ++ word ++ "'"
    "command '" ++ name ++ "' has more than one overload for " ++ shared
  | missingEnumValue command param =>
    "enum parameter '" ++ param ++ "' of '" ++ command ++ "' has no value"
  | misplacedSubQuery command param =>
    "sub-query parameter '" ++ param ++ "' of '" ++ command ++ "' must be trailing"
  | tooManySubQueries command count =>
    "command '" ++ command ++ "' declares " ++ toString count ++
      " sub-query parameters (at most 2)"

end TableError

def Command.misplaced? (c : Command) : Option Param :=
  (c.params.dropWhile fun p => p.kind ≠ .subQuery).find? fun p => p.kind ≠ .subQuery

def Command.key (c : Command) : String × Option String := (c.name, c.discriminant)

def Command.check (c : Command) : Except TableError Unit :=
  match c.params.find? fun p => p.kind = .enum && p.value.isNone with
  | some p => .error (.missingEnumValue c.name p.name)
  | none =>
    match c.misplaced? with
    | some p => .error (.misplacedSubQuery c.name p.name)
    | none =>
      if c.subQuerySlots > 2 then .error (.tooManySubQueries c.name c.subQuerySlots) else .ok ()

namespace CommandTable

/-- Checks commands in order, after commands with the given keys. -/
def checkAfter (seen : List (String × Option String)) : List Command → Except TableError Unit
  | [] => .ok ()
  | c :: rest =>
    match c.check with
    | .error e => .error e
    | .ok () =>
      if seen.contains c.key then .error (.ambiguousOverload c.name c.discriminant)
      else checkAfter (c.key :: seen) rest

def check (t : CommandTable) : Except TableError Unit := checkAfter [] t.commands

def isCommandName (t : CommandTable) (word : String) : Bool :=
  t.commands.any fun c => c.name = word

def overloads (t : CommandTable) (name : String) : List Command :=
  t.commands.filter fun c => c.name = name

def visible (t : CommandTable) (nested : Bool) : List Command :=
  t.commands.filter fun c => c.visibleIn nested

def visibleOverloads (t : CommandTable) (name : String) (nested : Bool) : List Command :=
  (t.overloads name).filter fun c => c.visibleIn nested

def position? (t : CommandTable) (name : String) (discriminant : Option String) : Option Nat :=
  t.commands.findIdx? fun c => c.key = (name, discriminant)

def visibleAt? (t : CommandTable) (nested : Bool) (position : Nat) : Option Command :=
  t.commands[position]?.filter fun c => c.visibleIn nested

/-- The overload that a query selects by its name and the token that follows. An overload with
a discriminant needs that token to be its word; one without is content with any token or none.
Of two that may be used in the given nesting, the earlier one is taken. -/
def resolve (t : CommandTable) (name : String) (next : Option String) (nested : Bool) :
    Option Command :=
  let keyed := next.bind fun word => t.position? name (some word)
  let bare := t.position? name none
  match keyed, bare with
  | none, none => none
  | some i, none => t.visibleAt? nested i
  | none, some j => t.visibleAt? nested j
  | some i, some j =>
    if i < j then (t.visibleAt? nested i).or (t.visibleAt? nested j)
    else (t.visibleAt? nested j).or (t.visibleAt? nested i)

def toJson (t : CommandTable) : Json :=
  .record
    [("formatVersion", .text t.version), ("commands", .list (t.commands.map Command.toJson))]

def toPrettyJson (t : CommandTable) : String := t.toJson.pretty

def ofJson? (json : Json) : Option CommandTable := do
  let m ← json.members? ["formatVersion", "commands"]
  let version ← m.orElse "formatVersion" formatVersion Json.toText?
  let commands ← m.required "commands" (Json.toList? Command.ofJson?)
  pure ⟨version, commands⟩

def ofJson (json : Json) : Except TableError CommandTable :=
  match ofJson? json with
  | none => .error .malformed
  | some t =>
    if majorVersion t.version ≠ majorVersion formatVersion then
      .error (.formatVersion t.version)
    else
      match t.check with
      | .error e => .error e
      | .ok () => .ok t

def parse (text : String) : Except TableError CommandTable :=
  match Json.parse? text with
  | none => .error .malformed
  | some json => ofJson json

end CommandTable

end Almanac
