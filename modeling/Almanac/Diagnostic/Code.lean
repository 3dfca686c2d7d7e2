/-!
The known kinds of problem. Each has a short identifier, a name and an explanation that is longer
than the message of any one diagnostic.
-/

namespace Almanac.Diagnostic

inductive Code where
  | unknownCommand
  | tooFewArguments
  | tooManyArguments
  | expectedNumber
  | expectedRow
  | expectedString
  | expectedDateIndex
  | invalidDateFormat
  | dateIndexOutOfRange
  | unimplementedType
  | externalServiceFailure
  | datasetFailure
  | internalError
deriving DecidableEq, Repr

namespace Code

def all : List Code :=
  [unknownCommand, tooFewArguments, tooManyArguments, expectedNumber, expectedRow, expectedString,
    expectedDateIndex, invalidDateFormat, dateIndexOutOfRange, unimplementedType,
    externalServiceFailure, datasetFailure, internalError]

def id : Code → String
  | unknownCommand => "WQ1001"
  | tooFewArguments => "WQ1002"
  | tooManyArguments => "WQ1003"
  | expectedNumber => "WQ1101"
  | expectedRow => "WQ1102"
  | expectedString => "WQ1103"
  | expectedDateIndex => "WQ1104"
  | invalidDateFormat => "WQ1105"
  | dateIndexOutOfRange => "WQ1106"
  | unimplementedType => "WQ1901"
  | externalServiceFailure => "WQ2001"
  | datasetFailure => "WQ2002"
  | internalError => "WQ2901"

def name : Code → String
  | unknownCommand => "UNKNOWN_COMMAND"
  | tooFewArguments => "TOO_FEW_ARGUMENTS"
  | tooManyArguments => "TOO_MANY_ARGUMENTS"
  | expectedNumber => "EXPECTED_NUMBER"
  | expectedRow => "EXPECTED_ROW"
  | expectedString => "EXPECTED_STRING"
  | expectedDateIndex => "EXPECTED_DATE_INDEX"
  | invalidDateFormat => "INVALID_DATE_FORMAT"
  | dateIndexOutOfRange => "DATE_INDEX_OUT_OF_RANGE"
  | unimplementedType => "UNIMPLEMENTED_TYPE"
  | externalServiceFailure => "EXTERNAL_SERVICE_FAILURE"
  | datasetFailure => "DATASET_FAILURE"
  | internalError => "INTERNAL_ERROR"

def explanation : Code → String
  | unknownCommand =>
    "The first word of a query must name a command from `help`. Inside a sub-query only " ++
      "commands that can be sub-queried (min, max, avg, value) are allowed, and overloaded " ++
      "commands such as `compare` need a known location type (coord, zip, city, dataset) right " ++
      "after the name."
  | tooFewArguments =>
    "Required parameters are shown in square brackets. Every required parameter, including a " ++
      "trailing sub-query, must be supplied."
  | tooManyArguments =>
    "The query received more arguments than the command declares. Optional parameters are shown " ++
      "in parentheses and count towards the limit."
  | expectedNumber => "Number parameters accept plain numbers such as 66213, 12 or 10.912."
  | expectedRow =>
    "Row parameters name a dataset column wrapped in back-ticks, for example `temperature_max`."
  | expectedString =>
    "String parameters are wrapped in double quotes and may contain spaces, for example " ++
      "\"Kansas City\"."
  | expectedDateIndex =>
    "Dates of one or two characters are day indexes into the dataset and must be integers; " ++
      "negative indexes count back from the last day."
  | invalidDateFormat =>
    "Dates are either a day index of length 1 or 2 (e.g. 0, -1) or an ISO date of length 10 " ++
      "(YYYY-MM-DD)."
  | dateIndexOutOfRange =>
    "A day index must satisfy -N <= index < N where N is the number of days in the dataset."
  | unimplementedType =>
    "The command table declares a parameter type that the interpreter does not implement. This " ++
      "is a defect in the command table, not in the query."
  | externalServiceFailure =>
    "A geocoding or weather archive request failed or returned no usable data. Check the " ++
      "connection, the API key, and that historical data exists for the requested dates."
  | datasetFailure =>
    "The dataset could not answer the query: the row or date is not present, the date range is " ++
      "empty, or a value is not numeric."
  | internalError =>
    "A query passed validation but could not be resolved for execution. This indicates an " ++
      "inconsistency between the validator and the executor."

def ofId? (id : String) : Option Code := all.find? fun code => code.id = id

end Code

def explain? (id : String) : Option String := (Code.ofId? id).map Code.explanation

end Almanac.Diagnostic
