import Almanac.Decimal.Binary
import Almanac.Decimal.Reading
import Almanac.Text.Pieces

/-!
Command-line arguments. A word with two hyphens is a long option, whose value stands after an
equals sign or in the next word; one with a single hyphen is a run of short flags; two hyphens
alone make everything that follows an argument. An option may be given once before the command
and once after it, and the later one counts.
-/

namespace Almanac.CommandLine

inductive UsageError where
  | unknownOption (text : String)
  | unknownCommand (word : String)
  | missingCommand
  | missingValue (option : String)
  | needlessValue (option : String)
  | repeatedOption (option : String)
  | badValue (option value : String)
  | missingArgument
  | surplusArgument (text : String)
deriving DecidableEq, Repr

def UsageError.message : UsageError → String
  | unknownOption text => "unexpected argument '" ++ text ++ "' found"
  | unknownCommand word => "unrecognized subcommand '" ++ word ++ "'"
  | missingCommand => "a subcommand is required but one was not provided"
  | missingValue option => "a value is required for '--" ++ option ++ "' but none was supplied"
  | needlessValue option => "unexpected value for '--" ++ option ++ "'"
  | repeatedOption option => "the argument '--" ++ option ++ "' cannot be used multiple times"
  | badValue option value => "invalid value '" ++ value ++ "' for '" ++ option ++ "'"
  | missingArgument => "a required argument was not provided"
  | surplusArgument text => "unexpected argument '" ++ text ++ "' found"

inductive Halt where
  | help
  | version
  | usage (error : UsageError)
deriving DecidableEq, Repr

def readCount? (text : String) : Option Nat :=
  let digits :=
    match text.toList with
    | '+' :: rest => rest
    | cs => cs
  if digits.isEmpty || !digits.all Char.isDigit then none
  else if Decimal.naturalOf digits < Decimal.twoTo 64 then some (Decimal.naturalOf digits)
  else none

inductive ValueKind where
  | path
  | count
  | oneOf (words : List String)
deriving DecidableEq, Repr

def ValueKind.admits (value : String) : ValueKind → Bool
  | path => !value.isEmpty
  | count => (readCount? value).isSome
  | oneOf words => words.contains value

inductive OptionKind where
  | help
  | version
  | flag
  | valued (kind : ValueKind)
deriving DecidableEq, Repr

structure OptionRule where
  long : String
  short : Option Char := none
  kind : OptionKind
deriving DecidableEq, Repr

structure Given where
  options : List (String × String) := []
  arguments : List String := []
deriving DecidableEq, Repr

namespace Given

def value? (given : Given) (option : String) : Option String := given.options.lookup option

def has (given : Given) (option : String) : Bool := (given.value? option).isSome

def add (given : Given) (option value : String) : Except Halt Given :=
  if given.has option then .error (.usage (.repeatedOption option))
  else .ok { given with options := given.options ++ [(option, value)] }

def addValue (given : Given) (option : String) (kind : ValueKind) (value : String) :
    Except Halt Given :=
  if kind.admits value then given.add option value
  else .error (.usage (.badValue option value))

def addArgument (given : Given) (text : String) : Given :=
  { given with arguments := given.arguments ++ [text] }

end Given

inductive Word where
  | escape
  | long (name : String) (value : Option String)
  | short (letters : List Char)
  | plain
deriving DecidableEq, Repr

def Word.ofText (text : String) : Word :=
  match text.toList with
  | ['-', '-'] => .escape
  | '-' :: '-' :: rest =>
    match Text.cutAt '=' rest with
    | some (name, value) => .long (String.ofList name) (some (String.ofList value))
    | none => .long (String.ofList rest) none
  | ['-'] => .plain
  | '-' :: letters => .short letters
  | _ => .plain

structure Pending where
  option : String
  kind : ValueKind
deriving DecidableEq, Repr

def readLetters (rules : List OptionRule) (given : Given) : List Char → Except Halt Given
  | [] => .ok given
  | letter :: rest =>
    match rules.find? fun rule => rule.short = some letter with
    | none => .error (.usage (.unknownOption ("-" ++ String.singleton letter)))
    | some rule =>
      match rule.kind with
      | .help => .error .help
      | .version => .error .version
      | .flag => do
        let given ← given.add rule.long ""
        readLetters rules given rest
      | .valued _ => .error (.usage (.missingValue rule.long))

def readLong (rules : List OptionRule) (given : Given) (name : String) (value : Option String) :
    Except Halt (Given × Option Pending) :=
  match rules.find? fun rule => rule.long = name with
  | none => .error (.usage (.unknownOption ("--" ++ name)))
  | some rule =>
    match rule.kind, value with
    | .valued kind, some value => (given.addValue name kind value).map (·, none)
    | .valued kind, none => .ok (given, some ⟨name, kind⟩)
    | _, some _ => .error (.usage (.needlessValue name))
    | .help, none => .error .help
    | .version, none => .error .version
    | .flag, none => (given.add name "").map (·, none)

/-- Reads words up to the first one that is neither an option nor a value, and returns it with
what follows. -/
def readOptions (rules : List OptionRule) (pending : Option Pending) (given : Given) :
    List String → Except Halt (Given × List String)
  | [] =>
    match pending with
    | some waiting => .error (.usage (.missingValue waiting.option))
    | none => .ok (given, [])
  | text :: rest =>
    match Word.ofText text, pending with
    | .plain, some waiting => do
      let given ← given.addValue waiting.option waiting.kind text
      readOptions rules none given rest
    | _, some waiting => .error (.usage (.missingValue waiting.option))
    | .plain, none => .ok (given, text :: rest)
    | .escape, none => .ok (given, text :: rest)
    | .long name value, none => do
      let (given, pending) ← readLong rules given name value
      readOptions rules pending given rest
    | .short letters, none => do
      let given ← readLetters rules given letters
      readOptions rules none given rest

def readAll (rules : List OptionRule) (pending : Option Pending) (given : Given) :
    List String → Except Halt Given
  | [] =>
    match pending with
    | some waiting => .error (.usage (.missingValue waiting.option))
    | none => .ok given
  | text :: rest =>
    match Word.ofText text, pending with
    | .plain, some waiting => do
      let given ← given.addValue waiting.option waiting.kind text
      readAll rules none given rest
    | _, some waiting => .error (.usage (.missingValue waiting.option))
    | .plain, none => readAll rules none (given.addArgument text) rest
    | .escape, none => .ok (rest.foldl Given.addArgument given)
    | .long name value, none => do
      let (given, pending) ← readLong rules given name value
      readAll rules pending given rest
    | .short letters, none => do
      let given ← readLetters rules given letters
      readAll rules none given rest

end Almanac.CommandLine
