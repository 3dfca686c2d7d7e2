import Almanac.Dataset.Records
import Almanac.Evaluation.Action
import Almanac.Evaluation.Output
import Almanac.Evaluation.Sentence
import Almanac.Query.Parser
import Almanac.Weather.Archive

/-!
Evaluating queries. Queries about the dataset are answered from it alone. A comparison with the
archive first measures the dataset, then finds the place, and then asks the archive for the days
that were measured. An evaluation has a result, and it records the calls that it made to remote
services and the outputs that it showed, each in order.
-/

namespace Almanac

/-- The remote services that a comparison relies on. What goes wrong with them is a text. -/
structure Services where
  locate : String → Except String Coordinates
  archive : Weather.ArchiveQuery → Except String Float

inductive ServiceCall where
  | locate (address : String)
  | archive (query : Weather.ArchiveQuery)
deriving DecidableEq

structure Environment where
  table : CommandTable
  dataset : Dataset
  services : Services

inductive Failure where
  | invalid (fault : Fault)
  | unresolved (query : Unresolved)
  | dataset (error : DatasetError) (span : Span)
  | unlocated (address reason : String) (span : Span)
  | unarchived (reason : String) (span : Span)
deriving DecidableEq, Repr

inductive Answer where
  | none
  | scalar (value : Float)
  | grid (grid : Grid)
  | bars (bars : List Bar)
  | text (sentence : String)
deriving DecidableEq

structure Evaluation where
  result : Except Failure Answer
  calls : List ServiceCall
  shown : List Output

/-- What came of submitting a line; a submission that failed has no answer. -/
structure Submission where
  answer : Option Answer
  calls : List ServiceCall
  shown : List Output

def Unresolved.toDiagnostic (u : Unresolved) : Diagnostic :=
  .error .internalError
    ("An unexpected error occurred as type checking passed, but query " ++ u.command ++
      " could not be resolved (" ++ u.part.phrase ++ " missing).")
    u.span

def Failure.toDiagnostic : Failure → Diagnostic
  | invalid fault => fault.toDiagnostic
  | unresolved query => query.toDiagnostic
  | dataset error span => .error .datasetFailure error.message span
  | unlocated address reason span =>
    .error .externalServiceFailure
      ("Could not find a location for " ++ address ++ ": " ++ reason) span
  | unarchived reason span =>
    .error .externalServiceFailure ("Could not fetch historical weather data: " ++ reason) span

namespace Answer

def tagged (kind : String) (value : Json) : Json :=
  .record [("type", .text kind), ("value", value)]

def toJson : Answer → Json
  | none => .record [("type", .text "none")]
  | scalar value => tagged "scalar" (.ofFloat value)
  | grid g => tagged "table" g.toJson
  | bars bs => tagged "histogram" (.list (bs.map Bar.toJson))
  | text sentence => tagged "text" (.text sentence)

end Answer

def Grid.ofDataset (ds : Dataset) : Grid where
  headers := ds.columnNames
  rows := ds.records.map fun record =>
    ds.columnNames.map fun name => (Keyed.find? name record).elim "" (Weather.cell name)

def Output.ofScalar (row : String) (value : Float) : Output :=
  if row = Weather.codeRow then
    .weatherCode (Weather.codeOf value) (Weather.codeLabel (Weather.codeOf value))
  else .text (Sentence.amount row value)

namespace Dataset

def measure (ds : Dataset) (m : Measure) : Except DatasetError Float :=
  ds.aggregate m.kind m.row m.first m.last

/-- The first and the last date that the archive is asked for: a single value on its day alone,
anything else from the first day to the last unless other days are given. -/
def archiveDays (ds : Dataset) (m : Measure) : Except DatasetError (String × String) := do
  let start := m.first.getD (.index 0)
  let stop :=
    match m.kind with
    | .value => start
    | _ => m.last.getD (.index (-1))
  let first ← ds.resolveDate start
  let last ← ds.resolveDate stop
  pure (first, last)

end Dataset

structure Consultation (α : Type) where
  result : Except Failure α
  calls : List ServiceCall

namespace Consultation

variable {α β : Type}

def of (result : Except Failure α) : Consultation α := ⟨result, []⟩

def andThen (c : Consultation α) (next : α → Consultation β) : Consultation β :=
  match c.result with
  | .error e => ⟨.error e, c.calls⟩
  | .ok value => ⟨(next value).result, c.calls ++ (next value).calls⟩

end Consultation

namespace Environment

def find (env : Environment) (span : Span) (address : String) : Consultation Coordinates :=
  ⟨(env.services.locate address).mapError fun reason => .unlocated address reason span,
    [.locate address]⟩

def locate (env : Environment) (span : Span) : Location → Consultation Coordinates
  | .point place => .of (.ok place)
  | .zip code => env.find span code
  | .city name => env.find span name

def archive (env : Environment) (span : Span) (query : Weather.ArchiveQuery) :
    Consultation Float :=
  ⟨(env.services.archive query).mapError fun reason => .unarchived reason span,
    [.archive query]⟩

def measure (env : Environment) (m : Measure) : Except Failure Float :=
  (env.dataset.measure m).mapError fun e => .dataset e m.span

def compareWith (env : Environment) (span : Span) (location : Location) (m : Measure) :
    Consultation String :=
  (Consultation.of (env.measure m)).andThen fun value =>
    (env.locate span location).andThen fun place =>
      (Consultation.of ((env.dataset.archiveDays m).mapError fun e => .dataset e span)).andThen
        fun days =>
          (env.archive span ⟨place, m.kind, m.row, days.1, days.2⟩).andThen fun archived =>
            .of (.ok (Sentence.withArchive m.kind m.row value place archived))

def compareBoth (env : Environment) (left right : Measure) : Except Failure String := do
  let value₁ ← env.measure left
  let value₂ ← env.measure right
  pure (Sentence.ofBoth left.kind left.row value₁ right.kind right.row value₂)

def settle {α : Type} (print : Bool) (c : Consultation α) (answer : α → Answer)
    (output : α → Output) : Evaluation :=
  match c.result with
  | .error e => ⟨.error e, c.calls, []⟩
  | .ok value => ⟨.ok (answer value), c.calls, if print then [output value] else []⟩

def announce (output : Output) : Evaluation := ⟨.ok .none, [], [output]⟩

/-- Performs the action of a query that stands at the given place. Results are shown only if
asked for, while actions that are nothing but an output always show it. -/
def perform (env : Environment) (print : Bool) (span : Span) : Action → Evaluation
  | .help => announce (.helpFor env.table)
  | .upload => announce .upload
  | .clear => announce .clear
  | .table => settle print (.of (.ok (Grid.ofDataset env.dataset))) .grid .table
  | .measure m => settle print (.of (env.measure m)) .scalar (.ofScalar m.row)
  | .chart row first last =>
    let bars := (env.dataset.histogram row first last).map fun days =>
      days.map fun day => Bar.mk day.1 day.2
    settle print (.of (bars.mapError fun e => .dataset e span)) .bars
      (.histogram ("Histogram of `" ++ row ++ "`") row)
  | .compareWith location m => settle print (env.compareWith span location m) .text .text
  | .compareBoth left right => settle print (.of (env.compareBoth left right)) .text .text

def evaluate (env : Environment) (print : Bool) (q : Query) : Evaluation :=
  match Action.ofQuery q with
  | .error lack => ⟨.error (.unresolved lack), [], []⟩
  | .ok action => env.perform print q.span action

/-- Runs a line; a failure is shown with the line that was echoed before. -/
def execute (env : Environment) (echoed line : String) : Submission :=
  match Query.parse env.table env.dataset.length false line with
  | .error fault => ⟨none, [], [.error echoed fault.toDiagnostic]⟩
  | .ok q =>
    let e := env.evaluate true q
    match e.result with
    | .ok answer => ⟨some answer, e.calls, e.shown⟩
    | .error failure => ⟨none, e.calls, e.shown ++ [.error echoed failure.toDiagnostic]⟩

def submit (env : Environment) (line : String) : Submission :=
  let run := env.execute line line
  { run with shown := .echo line :: run.shown }

end Environment

end Almanac
