import Almanac.Diagnostic.Basic
import Almanac.Table.Param

/-!
What can be wrong with a query line. A fault says which problem there is, whether the query that
has it is nested, and where it lies. The wording and the details of its diagnostic follow from
that.
-/

namespace Almanac

inductive ArgumentProblem where
  | notNumber
  | notRow
  | notString
  | notDateIndex
  | dateIndexOutOfRange (days : Nat)
  | notIsoDate
  | dateLength (characters : Nat)
  | unimplemented (kind : ParamKind)
deriving DecidableEq, Repr

inductive Problem where
  | emptyQuery
  | unknownCommand (word : String)
  | notSubQuery (word : String)
  | unknownVariant (word param given : String) (expected : List String)
  | missingVariant (word param : String) (expected : List String)
  | tooFewArguments (command : String) (required : List String) (received : Nat)
  | tooManyArguments (command : String) (params : List String) (received : Nat)
  | missingSubQuery (command param : String)
  | badArgument (command param value : String) (problem : ArgumentProblem)
deriving DecidableEq, Repr

structure Fault where
  problem : Problem
  nested : Bool
  span : Span
deriving DecidableEq, Repr

def boolWord (b : Bool) : String := if b then "true" else "false"

namespace ArgumentProblem

def code : ArgumentProblem → Diagnostic.Code
  | notNumber => .expectedNumber
  | notRow => .expectedRow
  | notString => .expectedString
  | notDateIndex => .expectedDateIndex
  | dateIndexOutOfRange _ => .dateIndexOutOfRange
  | notIsoDate => .invalidDateFormat
  | dateLength _ => .invalidDateFormat
  | unimplemented _ => .unimplementedType

def expected : ArgumentProblem → String
  | notNumber => "number"
  | notRow => "row"
  | notString => "string"
  | notDateIndex => "date index"
  | dateIndexOutOfRange _ => "date index in range"
  | notIsoDate => "YYYY-MM-DD"
  | dateLength _ => "date of length 1, 2 or 10"
  | unimplemented _ => "implemented type"

def bounds (days : Nat) : String :=
  if days = 0 then "but the dataset is empty"
  else "expected to be between -" ++ toString days ++ " and " ++ toString (days - 1)

def message (param place value : String) : ArgumentProblem → String
  | notNumber =>
    given ++ "expected to be type number but received \"" ++ value ++ "\" (type NaN)."
  | notRow => given ++ "expected to be type row but received \"" ++ value ++ "\"."
  | notString => given ++ "expected to be type string but received \"" ++ value ++ "\"."
  | notDateIndex =>
    given ++ "expected to be type date (as number) but received \"" ++ value ++ "\" (type NaN)."
  | dateIndexOutOfRange days =>
    given ++ "has a date index that is out of range (" ++ value ++ ") " ++ bounds days ++ "."
  | notIsoDate =>
    given ++ "expected to be type date (as format YYYY-MM-DD) but received \"" ++ value ++ "\"."
  | dateLength characters =>
    given ++ "expected to be type date, but was not formatted correctly, \"" ++ value ++
      "\" expected to have a length of 1, 2, or 10, but received " ++ toString characters ++ "."
  | unimplemented kind =>
    "Unexpected argument type, " ++ param ++ " in " ++ place ++ " type " ++ kind.word ++
      " (with value " ++ value ++ ") was not implemented."
where
  given : String := "Given argument, " ++ param ++ " in " ++ place ++ " "

end ArgumentProblem

def alternatives : List String → String
  | [] => ""
  | [word] => word
  | words => ", ".intercalate words.dropLast ++ " or " ++ words.getLastD ""

def parenthesized (names : List String) : String :=
  if names.isEmpty then "" else " (" ++ ", ".intercalate names ++ ")"

namespace Problem

def code : Problem → Diagnostic.Code
  | emptyQuery => .unknownCommand
  | unknownCommand _ => .unknownCommand
  | notSubQuery _ => .unknownCommand
  | unknownVariant .. => .unknownCommand
  | missingVariant .. => .unknownCommand
  | tooFewArguments .. => .tooFewArguments
  | tooManyArguments .. => .tooManyArguments
  | missingSubQuery .. => .tooFewArguments
  | badArgument _ _ _ problem => problem.code

def message (word : String) : Problem → String
  | emptyQuery => "Given " ++ word ++ " is empty."
  | unknownCommand head => "Given " ++ word ++ " " ++ head ++ " doesn't exist."
  | notSubQuery head => "Given " ++ word ++ " " ++ head ++ " cannot be used as a sub-query."
  | unknownVariant head param given expected =>
    "Given " ++ word ++ " " ++ head ++ " has no " ++ param ++ " " ++ given ++ " (expected " ++
      alternatives expected ++ ")."
  | missingVariant head param expected =>
    "Given " ++ word ++ " " ++ head ++ " is missing its " ++ param ++ " (expected " ++
      alternatives expected ++ ")."
  | tooFewArguments command required received =>
    "Given " ++ word ++ " " ++ command ++ parenthesized required ++ " expected at least " ++
      toString required.length ++ " arguments, but only received " ++ toString received ++
      parenthesized (required.take received) ++ "."
  | tooManyArguments command params received =>
    "Given " ++ word ++ " " ++ command ++ " expected at most " ++ toString params.length ++
      parenthesized params ++ " arguments, but received " ++ toString received ++ "."
  | missingSubQuery command param =>
    "Given " ++ word ++ " " ++ command ++ " expected a sub-query for " ++ param ++
      ", but received none."
  | badArgument command param value problem => problem.message param (word ++ " " ++ command) value

def unresolvedDetails (head : String) (nested : Bool) : List (String × String) :=
  [("command", head), ("nested", boolWord nested)]

def details (nested : Bool) : Problem → Option (List (String × String))
  | emptyQuery => none
  | unknownCommand head => some (unresolvedDetails head nested)
  | notSubQuery head => some (unresolvedDetails head nested)
  | unknownVariant head .. => some (unresolvedDetails head nested)
  | missingVariant head .. => some (unresolvedDetails head nested)
  | tooFewArguments command required received =>
    some
      [("command", command), ("expected", toString required.length),
        ("missing", ", ".intercalate (required.drop received)), ("received", toString received)]
  | tooManyArguments command params received =>
    some
      [("command", command), ("expected", toString params.length),
        ("received", toString received)]
  | missingSubQuery command param =>
    some [("command", command), ("expected", "subquery"), ("param", param)]
  | badArgument command param value problem =>
    some
      [("command", command), ("expected", problem.expected), ("nested", boolWord nested),
        ("param", param), ("value", value)]

end Problem

namespace Fault

def queryWord (nested : Bool) : String := if nested then "sub-query" else "query"

def toDiagnostic (f : Fault) : Diagnostic :=
  { Diagnostic.error f.problem.code (f.problem.message (queryWord f.nested)) f.span with
    context := f.problem.details f.nested }

end Fault

end Almanac
