/-!
What the program needs from the machine it runs on: files, and somewhere to print. The program is
written for any such host; one that keeps its files in memory is given here.
-/

namespace Almanac.CommandLine

inductive FileError where
  | missing
  | other (reason : String)
deriving DecidableEq, Repr

def FileError.message : FileError → String
  | missing => "No such file or directory (os error 2)"
  | other reason => reason

structure Host (m : Type → Type) where
  read : String → m (Except FileError String)
  write : String → String → m (Except FileError Unit)
  /-- Prints a line of output. -/
  say : String → m Unit
  /-- Prints a line beside the output. -/
  warn : String → m Unit

structure Memory where
  files : List (String × String)
  printed : String := ""
deriving DecidableEq, Repr

namespace Memory

def file? (memory : Memory) (path : String) : Option String := memory.files.lookup path

def save (path text : String) : List (String × String) → List (String × String)
  | [] => [(path, text)]
  | (other, old) :: rest =>
    if other = path then (path, text) :: rest else (other, old) :: save path text rest

def host : Host (StateM Memory) where
  read path := do
    match (← get).file? path with
    | some text => pure (.ok text)
    | none => pure (.error .missing)
  write path text := do
    modify fun memory => { memory with files := save path text memory.files }
    pure (.ok ())
  say line := modify fun memory => { memory with printed := memory.printed ++ line ++ "\n" }
  warn _ := pure ()

end Memory

end Almanac.CommandLine
