import Almanac.CommandLine.Host
import Almanac.CommandLine.Invocation
import Almanac.Config
import Almanac.Dataset.Records
import Almanac.Display.Output
import Almanac.Display.Panel
import Almanac.History
import Almanac.Table.Builtin

/-!
What the commands of the program share: loading and saving its files, submitting a line and
printing what it showed. A dataset or a history that was never saved is empty. What goes wrong
with a file says which file it was. An output that cannot be printed brings the whole program
down, and what was to be done after it is not done.
-/

namespace Almanac.CommandLine

inductive Trouble where
  | unreadConfig (path : String) (error : FileError)
  | unreadTable (path : String) (error : FileError)
  | unreadDataset (path : String) (error : FileError)
  | unreadHistory (path : String) (error : FileError)
  | unreadUpload (path : String) (error : FileError)
  | unsavedDataset (path : String) (error : FileError)
  | unsavedHistory (path : String) (error : FileError)
  | badConfig (path : String)
  | badTable (path : String) (error : TableError)
  | badDataset (path : String) (error : DatasetError)
  | badHistory (path : String)
  | badUpload (path : String) (error : DatasetError)
  | badRecords (error : DatasetError)
  | badUpdate (error : DatasetError)
deriving DecidableEq, Repr

namespace Trouble

def about (what path : String) : String := what ++ " '" ++ path ++ "'"

def access (path : String) (error : FileError) : String :=
  "failed to access dataset file " ++ path ++ ": " ++ error.message ++ ": " ++ error.message

def message : Trouble → String
  | unreadConfig path error => about "failed to read config file" path ++ ": " ++ error.message
  | unreadTable path error => about "failed to read tables file" path ++ ": " ++ error.message
  | unreadDataset path error => about "failed to load dataset" path ++ ": " ++ access path error
  | unreadHistory path error => about "failed to read history file" path ++ ": " ++ error.message
  | unreadUpload path error => about "failed to read upload" path ++ ": " ++ error.message
  | unsavedDataset path error => about "failed to save dataset" path ++ ": " ++ access path error
  | unsavedHistory path error => about "failed to write history file" path ++ ": " ++ error.message
  | badConfig path => about "failed to parse config file" path
  | badTable path error => about "failed to parse tables file" path ++ ": " ++ error.message
  | badDataset path error => about "failed to load dataset" path ++ ": " ++ error.message
  | badHistory path => about "failed to parse history file" path
  | badUpload path error => about "failed to parse upload" path ++ ": " ++ error.message
  | badRecords error => "failed to decode records: " ++ error.message
  | badUpdate error => "failed to update dataset: " ++ error.message

def toJson (trouble : Trouble) : Json :=
  .record
    [("error", .text "command_failed"), ("message", .text trouble.message),
      ("success", .bool false)]

end Trouble

/-- Why a command came to no end: trouble that it reports, or a crash of the whole program. -/
inductive Interruption where
  | trouble (trouble : Trouble)
  | crash (reason : String)
deriving DecidableEq, Repr

structure Setup where
  config : Config
  table : CommandTable
  format : Format
  transport : Weather.Transport

structure Session where
  dataset : Dataset
  history : History

def Setup.environment (setup : Setup) (ds : Dataset) : Environment :=
  ⟨setup.table, ds, setup.config.services setup.transport⟩

section Files

variable {m : Type → Type} [Monad m] (host : Host m)

def refuse {α : Type} (trouble : Trouble) : ExceptT Interruption m α := throw (.trouble trouble)

def readConfig : Option String → ExceptT Interruption m Config
  | none => pure Config.default
  | some path => do
    match ← host.read path with
    | .error e => refuse (.unreadConfig path e)
    | .ok text =>
      match Config.parse? text with
      | none => refuse (.badConfig path)
      | some config => pure config

def readTable : Option String → ExceptT Interruption m CommandTable
  | none => pure CommandTable.builtin
  | some path => do
    match ← host.read path with
    | .error e => refuse (.unreadTable path e)
    | .ok text =>
      match CommandTable.parse text with
      | .error e => refuse (.badTable path e)
      | .ok table => pure table

def readDataset (path : String) : ExceptT Interruption m Dataset := do
  match ← host.read path with
  | .error .missing => pure Dataset.empty
  | .error e => refuse (.unreadDataset path e)
  | .ok text =>
    match Dataset.parse text with
    | .error e => refuse (.badDataset path e)
    | .ok ds => pure ds

def readHistory (path : String) : ExceptT Interruption m History := do
  match ← host.read path with
  | .error .missing => pure []
  | .error e => refuse (.unreadHistory path e)
  | .ok text =>
    match History.parse? text with
    | none => refuse (.badHistory path)
    | some history => pure history

def readUpload (path : String) : ExceptT Interruption m Dataset := do
  match ← host.read path with
  | .error e => refuse (.unreadUpload path e)
  | .ok text =>
    match Dataset.parseUpload text with
    | .error e => refuse (.badUpload path e)
    | .ok ds => pure ds

def saveDataset (path : String) (ds : Dataset) : ExceptT Interruption m Unit := do
  match ← host.write path ds.toText with
  | .error e => refuse (.unsavedDataset path e)
  | .ok () => pure ()

def saveHistory (path : String) (history : History) : ExceptT Interruption m Unit := do
  match ← host.write path history.toText with
  | .error e => refuse (.unsavedHistory path e)
  | .ok () => pure ()

def sayAll (lines : List String) : m Unit := lines.forM host.say

def sayOutput (format : Format) (output : Output) : ExceptT Interruption m Unit :=
  match format, output with
  | .json, output => host.say output.toJson.compact
  -- In text, diagnostics stand beside the output.
  | .pretty, .error _ diagnostic => host.warn diagnostic.display
  | .pretty, output =>
    match output.lines with
    | .error reason => throw (.crash reason)
    | .ok lines => liftM (sayAll host lines)

def sayOutputs (format : Format) (outputs : List Output) : ExceptT Interruption m Unit :=
  outputs.forM (sayOutput host format)

def loadSession (setup : Setup) : ExceptT Interruption m Session := do
  let ds ← readDataset host setup.config.dataset
  let history ← readHistory host setup.config.history
  pure ⟨ds, history⟩

/-- Submits a line, prints what it showed and keeps it in a history and in its file. -/
def submitInto (path : String) (format : Format) (env : Environment) (history : History)
    (line : String) : ExceptT Interruption m (Submission × History) := do
  let recorded := env.submitRecorded history line
  sayOutputs host format recorded.submission.shown
  match recorded.history with
  | none => pure (recorded.submission, history)
  | some kept =>
    saveHistory host path kept
    pure (recorded.submission, kept)

def submitLine (setup : Setup) (session : Session) (line : String) :
    ExceptT Interruption m (Submission × Session) := do
  let env := setup.environment session.dataset
  let (submission, history) ←
    submitInto host setup.config.history setup.format env session.history line
  pure (submission, { session with history := history })

end Files

end Almanac.CommandLine
