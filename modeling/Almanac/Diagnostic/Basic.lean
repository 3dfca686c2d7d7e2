import Almanac.Diagnostic.Code
import Almanac.Span

/-!
A diagnostic reports a problem with a query: which kind of problem, how severe it is, where in
the line it lies when that is known, and details by name for programs to read.
-/

namespace Almanac

inductive Severity where
  | error
  | warn
  | info
deriving DecidableEq, Repr

def Severity.word : Severity → String
  | .error => "error"
  | .warn => "warn"
  | .info => "info"

def Severity.ofWord? : String → Option Severity
  | "error" => some .error
  | "warn" => some .warn
  | "info" => some .info
  | _ => none

structure Diagnostic where
  id : String
  severity : Severity
  message : String
  span : Option Span
  /-- Details in the order of their keys. -/
  context : Option (List (String × String)) := none
deriving DecidableEq, Repr

namespace Diagnostic

def error (code : Code) (message : String) (span : Span) : Diagnostic :=
  ⟨code.id, .error, message, some span, none⟩

def isError (d : Diagnostic) : Bool := d.severity = .error

def explanation? (d : Diagnostic) : Option String := explain? d.id

def detail? (d : Diagnostic) (key : String) : Option String := d.context.bind (Keyed.find? key)

def display (d : Diagnostic) : String :=
  d.severity.word ++ "[" ++ d.id ++ "]: " ++ d.message

def contextJson (entries : List (String × String)) : Json :=
  .record (entries.map fun entry => (entry.1, .text entry.2))

def toJson (d : Diagnostic) : Json :=
  .record <|
    [("id", .text d.id), ("severity", .text d.severity.word), ("message", .text d.message)] ++
      Json.fieldIfSome "span" Span.toJson d.span ++
      Json.fieldIfSome "context" contextJson d.context

def ofJson? (value : Json) : Option Diagnostic := do
  let m ← value.members? ["id", "severity", "message", "span", "context"]
  let id ← m.required "id" Json.toText?
  let severity ← m.required "severity" fun word => word.toWord?.bind Severity.ofWord?
  let message ← m.required "message" Json.toText?
  let span ← m.nullable "span" Span.ofJson?
  let context ← m.nullable "context" (Json.toEntries? Json.toText?)
  pure ⟨id, severity, message, span, context⟩

end Diagnostic

end Almanac
