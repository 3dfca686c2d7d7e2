import Almanac.Evaluation.Basic

/-!
The history holds the submitted lines with everything that they showed, so that it can be shown
again without running them. Lines that are no queries are not kept, and a query that clears the
history is not kept itself.
-/

namespace Almanac

structure HistoryEntry where
  line : String
  outputs : List Output
deriving DecidableEq

/-- Entries from the oldest to the newest. -/
abbrev History := List HistoryEntry

namespace HistoryEntry

def toJson (entry : HistoryEntry) : Json :=
  .record
    [("input", .text entry.line), ("outputs", .list (entry.outputs.map Output.toJson))]

def ofJson? (json : Json) : Option HistoryEntry := do
  let m ← json.members? ["input", "outputs"]
  let line ← m.required "input" Json.toText?
  let outputs ← m.required "outputs" (Json.toList? Output.ofJson?)
  pure ⟨line, outputs⟩

end HistoryEntry

namespace History

def toJson (history : History) : Json := .list (history.map HistoryEntry.toJson)

def toText (history : History) : String := history.toJson.pretty

def ofJson? : Json → Option History := Json.toList? HistoryEntry.ofJson?

def parse? (text : String) : Option History := (Json.parse? text).bind ofJson?

def outputs (history : History) : List Output := history.flatMap HistoryEntry.outputs

def record (history : History) (line : String) (outputs : List Output) : History :=
  if outputs.contains .clear then [] else history ++ [⟨line, outputs⟩]

end History

structure RecordedSubmission where
  submission : Submission
  history : Option History

/-- Submits a line and keeps it when it is a query. -/
def Environment.submitRecorded (env : Environment) (history : History) (line : String) :
    RecordedSubmission :=
  let submission := env.submit line
  if Query.isValid env.table env.dataset.length false line then
    ⟨submission, some (history.record line submission.shown)⟩
  else ⟨submission, none⟩

end Almanac
