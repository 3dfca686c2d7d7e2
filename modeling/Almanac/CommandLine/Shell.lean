import Almanac.CommandLine.Session

/-!
The shell runs one line after another. A line that starts with a colon is for the shell itself,
and one that ends with a question mark asks for the suggestion panel of what stands before it.
Trouble with a line does not end the shell, unlike a crash.
-/

namespace Almanac.CommandLine.Shell

inductive Entry where
  | blank
  | quit
  | help
  | upload (path : String)
  | unknown (word : String)
  | suggest (line : List Char)
  | submit (line : String)
deriving DecidableEq, Repr

def entryOfWord (word argument : List Char) : Entry :=
  match String.ofList word with
  | "quit" | "q" | "exit" => .quit
  | "help" | "h" => .help
  | "upload" => .upload (String.ofList (Text.trim argument))
  | other => .unknown other

def Entry.ofLine (line : String) : Entry :=
  match Text.trim line.toList with
  | [] => .blank
  | ':' :: rest =>
    let (word, argument) := (Text.cutAt ' ' rest).getD (rest, [])
    entryOfWord word argument
  | cs =>
    match Text.dropLast? '?' cs with
    | some asked => .suggest asked
    | none => .submit (String.ofList cs)

def helpLines : List String :=
  ["Type a query and press Enter. Tab completes, → accepts the hint.",
    "End a line with `?` to show its suggestion panel.", "",
    "  :upload <FILE>  replace the dataset with FILE", "  :help           show this message",
    "  :quit           leave the shell"]

variable {m : Type → Type} [Monad m] (host : Host m)

def start (setup : Setup) : ExceptT Interruption m Session := do
  let session ← loadSession host setup
  sayOutputs host setup.format session.history.outputs
  pure session

def upload (setup : Setup) (session : Session) (path : String) :
    ExceptT Interruption m Session := do
  let ds ← readUpload host path
  saveDataset host setup.config.dataset ds
  host.say ("Loaded " ++ toString ds.length ++ " days from " ++ path)
  pure { session with dataset := ds }

/-- The session after an attempt, which is the old one if there was trouble. -/
def orStay (session : Session) (attempt : ExceptT Interruption m Session) :
    ExceptT Interruption m Session :=
  tryCatch attempt fun
    | .trouble trouble => do
      host.warn ("error: " ++ trouble.message)
      pure session
    | .crash reason => throw (.crash reason)

def sayPanel (setup : Setup) (session : Session) (line : List Char) : m Unit :=
  match (Suggestion.after (.ofDataset setup.table session.dataset) false 0 line .focus).panel? with
  | none => pure ()
  | some panel => sayAll host panel.lines

/-- The session after a line; none after the last one. -/
def step (setup : Setup) (session : Session) (line : String) :
    ExceptT Interruption m (Option Session) := do
  match Entry.ofLine line with
  | .blank => pure (some session)
  | .quit => pure none
  | .help => liftM (sayAll host helpLines) *> pure (some session)
  | .upload path =>
    if path.isEmpty then
      liftM (host.warn "error: usage: :upload <FILE>") *> pure (some session)
    else some <$> orStay host session (upload host setup session path)
  | .unknown word =>
    host.warn ("error: unknown shell command `:" ++ word ++ "` (try :help)")
    pure (some session)
  | .suggest asked => liftM (sayPanel host setup session asked) *> pure (some session)
  | .submit line =>
    some <$> orStay host session ((submitLine host setup session line).map Prod.snd)

def runLines (setup : Setup) (session : Session) : List String → ExceptT Interruption m Unit
  | [] => pure ()
  | line :: rest => do
    match ← step host setup session line with
    | none => pure ()
    | some next => runLines setup next rest

end Almanac.CommandLine.Shell
