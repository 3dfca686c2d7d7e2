import Almanac.CommandLine.Shell

/-!
Running the program: reading the settings, carrying out the command and reporting its outcome by
an exit code. A command that could not be carried out prints nothing but an error object, and that
only in JSON output. A crash has no such object.
-/

namespace Almanac.CommandLine

structure ExitCode where
  value : UInt8
deriving DecidableEq, Repr

namespace ExitCode

def success : ExitCode := ⟨0⟩

def failure : ExitCode := ⟨1⟩

def usage : ExitCode := ⟨2⟩

def crash : ExitCode := ⟨101⟩

def ofFailed (failed : Bool) : ExitCode := if failed then failure else success

end ExitCode

variable {m : Type → Type} [Monad m] (host : Host m)

def runQuery (setup : Setup) (line : String) : ExceptT Interruption m ExitCode := do
  let session ← loadSession host setup
  let (submission, _) ← submitLine host setup session line
  pure (.ofFailed (submission.shown.any Output.isError))

def checkJson (result : Except Diagnostic Query) : Json :=
  match result with
  | .ok q => .record [("ok", .bool true), ("ast", q.toJson), ("diagnostics", .list [])]
  | .error d => .record [("ok", .bool false), ("ast", .null), ("diagnostics", .list [d.toJson])]

def runCheck (setup : Setup) (line : String) (nested : Bool) : ExceptT Interruption m ExitCode := do
  let ds ← readDataset host setup.config.dataset
  let result := (Query.parse setup.table ds.length nested line).mapError Fault.toDiagnostic
  match setup.format, result with
  | .json, result => host.say (checkJson result).sorted.pretty
  | .pretty, .ok q =>
    host.say q.toJson.pretty
    host.warn "query ok"
  | .pretty, .error d => host.warn d.display
  pure (.ofFailed (result matches .error _))

def runSuggest (setup : Setup) (line : String) (nested : Bool) (event : InputEvent)
    (cursor : Nat) : ExceptT Interruption m ExitCode := do
  let ds ← readDataset host setup.config.dataset
  let offer := Offer.ofDataset setup.table ds
  let suggestion := Suggestion.after offer nested cursor line.toList event
  match setup.format with
  | .json => host.say suggestion.toJson.pretty
  | .pretty =>
    match suggestion.completed with
    | some completed => host.say (Color.cyan.paint ">" ++ " " ++ String.ofList completed)
    | none => pure ()
    match suggestion.panel? with
    | some panel => liftM (sayAll host panel.lines)
    | none => host.warn "(no panel)"
  pure .success

def sayEdit (setup : Setup) (status : String) (count : Nat) : m Unit :=
  match setup.format with
  | .json =>
    host.say
      (Json.record
        [("count", .ofNat count), ("dataset", .text setup.config.dataset),
          ("status", .text status)]).pretty
  | .pretty => host.warn (status ++ " " ++ toString count ++ ": " ++ setup.config.dataset)

def runUpload (setup : Setup) (path : String) : ExceptT Interruption m ExitCode := do
  let ds ← readUpload host path
  saveDataset host setup.config.dataset ds
  liftM (sayEdit host setup "uploaded" ds.length)
  pure .success

def runUpdate (setup : Setup) (records : String) : ExceptT Interruption m ExitCode := do
  match Record.parseBatch records with
  | .error e => refuse (.badRecords e)
  | .ok batch =>
    let ds ← readDataset host setup.config.dataset
    match ds.updateRecords batch with
    | .error e => refuse (.badUpdate e)
    | .ok (updated, count) =>
      saveDataset host setup.config.dataset updated
      liftM (sayEdit host setup "updated" count)
      pure .success

def runDelete (setup : Setup) (dates : List String) : ExceptT Interruption m ExitCode := do
  let ds ← readDataset host setup.config.dataset
  let (kept, count) := ds.removeDates dates
  saveDataset host setup.config.dataset kept
  liftM (sayEdit host setup "deleted" count)
  pure .success

def runHistory (setup : Setup) (clear : Bool) : ExceptT Interruption m ExitCode := do
  let history ← readHistory host setup.config.history
  if clear then
    saveHistory host setup.config.history []
    match setup.format with
    | .json => host.say (Json.record [("status", .text "cleared")]).compact
    | .pretty => sayOutput host .pretty .clear
  else
    match setup.format with
    | .json => host.say history.toJson.pretty
    | .pretty => sayOutputs host .pretty history.outputs
  pure .success

def runCommands (setup : Setup) : ExceptT Interruption m ExitCode := do
  match setup.format with
  | .json => host.say setup.table.toPrettyJson
  | .pretty => sayOutput host .pretty (.helpFor setup.table)
  pure .success

def runExplain (setup : Setup) (id : String) : ExceptT Interruption m ExitCode := do
  let explanation := Diagnostic.explain? id
  match setup.format, explanation with
  | .json, explanation =>
    host.say
      (Json.record
        [("explanation", Json.ofOption .text explanation), ("id", .text id)]).pretty
  | .pretty, some text => host.say (Color.cyan.paint id ++ ": " ++ text)
  | .pretty, none => host.say (id ++ ": (no explanation available)")
  pure .success

/-- Carries out a task; a shell that has been started is left to `converse`. -/
def runTask (converse : Setup → Session → ExceptT Interruption m Unit) (setup : Setup) :
    Task → ExceptT Interruption m ExitCode
  | .run line => runQuery host setup line
  | .check line nested => runCheck host setup line nested
  | .suggest line nested event cursor => runSuggest host setup line nested event cursor
  | .shell => do
    let session ← Shell.start host setup
    converse setup session
    pure .success
  | .upload path => runUpload host setup path
  | .update records => runUpdate host setup records
  | .delete dates => runDelete host setup dates
  | .history clear => runHistory host setup clear
  | .commands => runCommands host setup
  | .explain id => runExplain host setup id

def prepare (transport : Weather.Transport) (key : Option String) (format : Format)
    (invocation : Invocation) : ExceptT Interruption m Setup := do
  let config ← readConfig host invocation.config
  let table ← readTable host invocation.table
  pure
    { config := (config.withKey key).withDataset invocation.dataset
      table := table
      format := format
      transport := transport }

def report (format : Format) (outcome : Except Interruption ExitCode) : m ExitCode :=
  match format, outcome with
  | _, .ok code => pure code
  | .json, .error (.trouble trouble) => host.say trouble.toJson.pretty *> pure .failure
  | .pretty, .error (.trouble trouble) =>
    host.warn ("error: " ++ trouble.message) *> pure .failure
  | _, .error (.crash reason) => host.warn reason *> pure .crash

def versionLine : String := "wq 0.1.0"

def helpLines : List String :=
  ["Weather query language: run, check and complete queries over a weather dataset", "",
    "Usage: wq [OPTIONS] <COMMAND>", "", "Commands: " ++ ", ".intercalate commandNames]

def reportHalt : Halt → m ExitCode
  | .help => sayAll host helpLines *> pure .success
  | .version => host.say versionLine *> pure .success
  | .usage error => host.warn ("error: " ++ error.message) *> pure .usage

/-- Runs the program on its arguments. Output is printed in the usual format unless they name
another. -/
def run (converse : Setup → Session → ExceptT Interruption m Unit) (transport : Weather.Transport)
    (key : Option String) (usual : Format) (arguments : List String) : m ExitCode :=
  match Invocation.ofArguments arguments with
  | .error halt => reportHalt host halt
  | .ok invocation => do
    let format := invocation.format.getD usual
    let outcome ← (do
      let setup ← prepare host transport key format invocation
      runTask host converse setup invocation.task : ExceptT Interruption m ExitCode).run
    report host format outcome

def runInMemory (files : List (String × String)) (key : Option String)
    (arguments lines : List String) : ExitCode × Memory :=
  let converse := fun setup session => Shell.runLines Memory.host setup session lines
  (run Memory.host converse Weather.Transport.offline key .json arguments).run ⟨files, ""⟩

end Almanac.CommandLine
