import Almanac.Diagnostic.Basic
import Almanac.Table.Basic

/-!
What is shown to the user: the line that was submitted, results of every shape, diagnostics and
the documentation of the commands. Outputs have a JSON form in which they are kept for later.
-/

namespace Almanac

structure Bar where
  date : String
  value : Float
deriving DecidableEq

structure Grid where
  headers : List String
  rows : List (List String)
deriving DecidableEq, Repr

structure HelpEntry where
  usage : String
  arity : String
  description : String
deriving DecidableEq, Repr

inductive Output where
  | echo (line : String)
  | text (content : String)
  | table (grid : Grid)
  | histogram (title label : String) (bars : List Bar)
  | weatherCode (code : Int) (label : String)
  | error (line : String) (diagnostic : Diagnostic)
  | help (commands : List HelpEntry)
  | upload
  | clear
deriving DecidableEq

namespace Bar

def toJson (bar : Bar) : Json :=
  .record [("date", .text bar.date), ("value", .ofFloat bar.value)]

def ofJson? (json : Json) : Option Bar := do
  let m ← json.members? ["date", "value"]
  pure ⟨← m.required "date" Json.toText?, ← m.required "value" Json.toFloat?⟩

end Bar

namespace Grid

def toJson (grid : Grid) : Json :=
  .record
    [("headers", .ofTexts grid.headers), ("rows", .list (grid.rows.map Json.ofTexts))]

def ofJson? (json : Json) : Option Grid := do
  let m ← json.members? ["headers", "rows"]
  let headers ← m.required "headers" (Json.toList? Json.toText?)
  let rows ← m.required "rows" (Json.toList? (Json.toList? Json.toText?))
  pure ⟨headers, rows⟩

end Grid

namespace HelpEntry

def ofCommand (c : Command) : HelpEntry := ⟨c.usage, c.arityLabel, c.description⟩

def toJson (entry : HelpEntry) : Json :=
  .record
    [("usage", .text entry.usage), ("arity", .text entry.arity),
      ("description", .text entry.description)]

def ofJson? (json : Json) : Option HelpEntry := do
  let m ← json.members? ["usage", "arity", "description"]
  let usage ← m.required "usage" Json.toText?
  let arity ← m.required "arity" Json.toText?
  let description ← m.required "description" Json.toText?
  pure ⟨usage, arity, description⟩

end HelpEntry

namespace Output

def helpFor (table : CommandTable) : Output := .help (table.commands.map HelpEntry.ofCommand)

def isError : Output → Bool
  | error .. => true
  | _ => false

def tagged (kind : String) (fields : List (String × Json)) : Json :=
  .record (("kind", .text kind) :: fields)

def toJson : Output → Json
  | echo line => tagged "echo" [("line", .text line)]
  | text content => tagged "text" [("text", .text content)]
  | table grid => tagged "table" [("grid", grid.toJson)]
  | histogram title label bars =>
    tagged "histogram"
      [("title", .text title), ("y_label", .text label), ("bars", .list (bars.map Bar.toJson))]
  | weatherCode code label =>
    tagged "weather-code" [("code", .int code), ("label", .text label)]
  | error line diagnostic =>
    tagged "error" [("line", .text line), ("diagnostic", diagnostic.toJson)]
  | help commands => tagged "help" [("commands", .list (commands.map HelpEntry.toJson))]
  | upload => tagged "upload" []
  | clear => tagged "clear" []

/-- The kind of an output is looked up in the whole object, so that all of it has to be readable. -/
def ofJson? (json : Json) : Option Output := do
  let json ← json.toAny?
  let members fields := json.members? ("kind" :: fields)
  match ← json.tag? "kind" with
  | "echo" => do
    let m ← members ["line"]
    pure (echo (← m.required "line" Json.toText?))
  | "text" => do
    let m ← members ["text"]
    pure (text (← m.required "text" Json.toText?))
  | "table" => do
    let m ← members ["grid"]
    pure (table (← m.required "grid" Grid.ofJson?))
  | "histogram" => do
    let m ← members ["title", "y_label", "bars"]
    let title ← m.required "title" Json.toText?
    let label ← m.required "y_label" Json.toText?
    let bars ← m.required "bars" (Json.toList? Bar.ofJson?)
    pure (histogram title label bars)
  | "weather-code" => do
    let m ← members ["code", "label"]
    let code ← m.required "code" Json.toInt?
    let label ← m.required "label" Json.toText?
    pure (weatherCode code label)
  | "error" => do
    let m ← members ["line", "diagnostic"]
    let line ← m.required "line" Json.toText?
    let diagnostic ← m.required "diagnostic" Diagnostic.ofJson?
    pure (error line diagnostic)
  | "help" => do
    let m ← members ["commands"]
    pure (help (← m.required "commands" (Json.toList? HelpEntry.ofJson?)))
  | "upload" => do
    let _ ← members []
    pure upload
  | "clear" => do
    let _ ← members []
    pure clear
  | _ => none

end Output

end Almanac
