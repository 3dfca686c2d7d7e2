import Almanac.CommandLine.Arguments
import Almanac.Completion.Suggestion

/-!
The commands of the program and what they are called with.
-/

namespace Almanac.CommandLine

inductive Format where
  | pretty
  | json
deriving DecidableEq, Repr

inductive Task where
  | run (line : String)
  | check (line : String) (nested : Bool)
  | suggest (line : String) (nested : Bool) (event : InputEvent) (cursor : Nat)
  | shell
  | upload (path : String)
  | update (records : String)
  | delete (dates : List String)
  | history (clear : Bool)
  | commands
  | explain (id : String)
deriving DecidableEq, Repr

structure Invocation where
  /-- Without a format, it depends on where the output goes. -/
  format : Option Format
  table : Option String
  dataset : Option String
  config : Option String
  verbose : Bool
  task : Task
deriving DecidableEq, Repr

def Format.ofWord? : String → Option Format
  | "pretty" => some .pretty
  | "json" => some .json
  | _ => none

def keys : List (String × Key) :=
  [("up", .arrowUp), ("down", .arrowDown), ("tab", .tab), ("escape", .escape), ("other", .other)]

def sharedRules : List OptionRule :=
  [⟨"output", none, .valued (.oneOf ["pretty", "json"])⟩, ⟨"tables", none, .valued .path⟩,
    ⟨"dataset", none, .valued .path⟩, ⟨"config", none, .valued .path⟩,
    ⟨"verbose", some 'v', .flag⟩, ⟨"help", some 'h', .help⟩]

def outerRules : List OptionRule := sharedRules ++ [⟨"version", some 'V', .version⟩]

def nestedRule : OptionRule := ⟨"sub-query", none, .flag⟩

def ownRules : String → List OptionRule
  | "check" => [nestedRule]
  | "suggest" =>
    [nestedRule, ⟨"key", none, .valued (.oneOf (keys.map Prod.fst))⟩,
      ⟨"selected", none, .valued .count⟩, ⟨"select", none, .valued .count⟩]
  | "history" => [⟨"clear", none, .flag⟩]
  | _ => []

def eventOf (given : Given) : InputEvent :=
  -- A choice of a candidate comes before a key.
  match (given.value? "select").bind readCount? with
  | some index => .select index
  | none => .key (((given.value? "key").bind fun word => keys.lookup word).getD .other)

def noMore (task : Task) : List String → Except Halt Task
  | [] => .ok task
  | text :: _ => .error (.usage (.surplusArgument text))

def withOne (task : String → Task) : List String → Except Halt Task
  | [] => .error (.usage .missingArgument)
  | text :: more => noMore (task text) more

def taskOf (command : String) (given : Given) : Except Halt Task :=
  let arguments := given.arguments
  match command with
  | "run" => withOne .run arguments
  | "check" => withOne (fun line => .check line (given.has "sub-query")) arguments
  | "suggest" =>
    let cursor := ((given.value? "selected").bind readCount?).getD 0
    withOne (fun line => .suggest line (given.has "sub-query") (eventOf given) cursor) arguments
  | "shell" => noMore .shell arguments
  | "upload" =>
    if arguments.head? = some "" then .error (.usage (.badValue "FILE" ""))
    else withOne .upload arguments
  | "update" => withOne .update arguments
  | "delete" =>
    if arguments.isEmpty then .error (.usage .missingArgument) else .ok (.delete arguments)
  | "history" => noMore (.history (given.has "clear")) arguments
  | "commands" => noMore .commands arguments
  | "explain" => withOne .explain arguments
  | _ => .error (.usage (.unknownCommand command))

def commandNames : List String :=
  ["run", "check", "suggest", "shell", "upload", "update", "delete", "history", "commands",
    "explain"]

def haltForHelp : List String → Halt
  | [] => .help
  | [word] =>
    if (commandNames ++ ["help"]).contains word then .help else .usage (.unknownCommand word)
  | _ :: word :: _ => .usage (.unknownCommand word)

/-- The invocation that arguments ask for. -/
def Invocation.ofArguments (arguments : List String) : Except Halt Invocation := do
  let (outer, rest) ← readOptions outerRules none {} arguments
  match rest with
  | [] => .error (.usage .missingCommand)
  | command :: rest =>
    if command = "help" then .error (haltForHelp rest)
    else if !commandNames.contains command then .error (.usage (.unknownCommand command))
    else
      let inner ← readAll (sharedRules ++ ownRules command) none {} rest
      let task ← taskOf command inner
      let value? := fun option => (inner.value? option).or (outer.value? option)
      pure
        { format := (value? "output").bind Format.ofWord?
          table := value? "tables"
          dataset := value? "dataset"
          config := value? "config"
          verbose := inner.has "verbose" || outer.has "verbose"
          task := task }

end Almanac.CommandLine
