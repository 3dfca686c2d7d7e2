import Almanac.CommandLine.Run

/-!
The program on a real machine: its files, its output and its input. There is no network here, so
the remote services cannot be reached.
-/

namespace Almanac.CommandLine

def fileError : IO.Error → FileError
  | .noFileOrDirectory .. => .missing
  | error => .other (toString error)

def disk : Host IO where
  read path := do
    try
      let text ← IO.FS.readFile path
      pure (.ok text)
    catch error => pure (.error (fileError error))
  write path text := do
    try
      IO.FS.writeFile path text
      pure (.ok ())
    catch error => pure (.error (fileError error))
  say line := IO.println line
  warn line := IO.eprintln line

/-- Runs the shell on lines as they come in. -/
partial def converse (setup : Setup) (session : Session) : ExceptT Interruption IO Unit := do
  let line ← (← IO.getStdin).getLine
  unless line.isEmpty do
    match ← Shell.step disk setup session line with
    | none => pure ()
    | some next => converse setup next

end Almanac.CommandLine

open Almanac Almanac.CommandLine in
def main (arguments : List String) : IO UInt32 := do
  let key ← IO.getEnv Config.keyVariable
  let usual := if ← (← IO.getStdout).isTty then Format.pretty else Format.json
  let code ← run disk converse Weather.Transport.offline key usual arguments
  pure code.value.toUInt32
