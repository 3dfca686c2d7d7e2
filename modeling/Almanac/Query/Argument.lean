import Almanac.Query.Fault
import Almanac.Query.Token
import Almanac.Query.Tree

/-!
Reading a token as an argument. Rows stand in back-ticks and texts in double quotes; a date of
one or two characters is a place among the days, and one of ten characters is an ISO date.
-/

namespace Almanac.Argument

def unwrapText? (delimiter : Char) (text : String) : Option String :=
  (Text.unwrap? delimiter text.toList).map String.ofList

def inBounds (days : Nat) (place : Int) : Bool := -(days : Int) ≤ place && place < days

def readDate (days : Nat) (text : String) : Except ArgumentProblem DateToken :=
  match text.length with
  | 1 | 2 =>
    match Decimal.readInteger? text.toList with
    | none => .error .notDateIndex
    | some place =>
      if inBounds days place then .ok (.index place) else .error (.dateIndexOutOfRange days)
  | 10 => if isIsoDate text then .ok (.iso text) else .error .notIsoDate
  | characters => .error (.dateLength characters)

def readValue (days : Nat) (text : String) : ParamKind → Except ArgumentProblem ArgumentValue
  | .int | .number =>
    match Decimal.readFinite? text.toList with
    | some x => .ok (.number x)
    | none => .error .notNumber
  | .row =>
    match unwrapText? '`' text with
    | some name => .ok (.row name)
    | none => .error .notRow
  | .string =>
    match unwrapText? '"' text with
    | some content => .ok (.text content)
    | none => .error .notString
  | .date => (readDate days text).map .date
  | .enum => .ok (.enum text)
  | .subQuery => .error (.unimplemented .subQuery)
  | .unsupported => .error (.unimplemented .unsupported)

def bind (days : Nat) (command : String) (nested : Bool) (param : Param) (token : Token) :
    Except Fault Argument :=
  match readValue days token.text param.kind with
  | .ok value => .ok ⟨param.name, param.kind, value, token.text, token.span⟩
  | .error problem =>
    .error ⟨.badArgument command param.name token.text problem, nested, token.span⟩

def bindAll (days : Nat) (command : String) (nested : Bool) :
    List Param → List Token → Except Fault (List Argument)
  | param :: params, token :: tokens =>
    match bind days command nested param token with
    | .error e => .error e
    | .ok argument =>
      match bindAll days command nested params tokens with
      | .error e => .error e
      | .ok arguments => .ok (argument :: arguments)
  | _, _ => .ok []

end Almanac.Argument
