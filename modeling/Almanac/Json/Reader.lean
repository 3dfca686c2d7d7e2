import Almanac.Json.Numeral

/-!
Reading JSON text. The form is strict: nothing but blanks may surround a value, and a string holds
no control character. Half of a surrogate pair is well-formed, but the text around it cannot be
read, and neither can a record with such a key. Lists and records can be read as long as at most
127 of them are open at once.
-/

namespace Almanac.Json

def isSpace (c : Char) : Bool := c = ' ' || c = '\n' || c = '\t' || c = '\r'

def skipSpace (cs : List Char) : List Char := cs.dropWhile isSpace

def hexValue? (c : Char) : Option Nat :=
  if '0' ≤ c && c ≤ '9' then some (c.toNat - '0'.toNat)
  else if 'a' ≤ c && c ≤ 'f' then some (c.toNat - 'a'.toNat + 10)
  else if 'A' ≤ c && c ≤ 'F' then some (c.toNat - 'A'.toNat + 10)
  else none

def readUnit? : List Char → Option (Nat × List Char)
  | a :: b :: c :: d :: rest => do
    let value := (← hexValue? a) * 4096 + (← hexValue? b) * 256 + (← hexValue? c) * 16 +
      (← hexValue? d)
    pure (value, rest)
  | _ => none

def readPair? (high : Nat) : List Char → Option (Char × List Char)
  | '\\' :: 'u' :: rest => do
    let (low, after) ← readUnit? rest
    if 0xDC00 ≤ low && low < 0xE000 then
      pure (Char.ofNat (0x10000 + (high - 0xD800) * 1024 + (low - 0xDC00)), after)
    else none
  | _ => none

/-- A character from one code unit, or from the two halves of a surrogate pair. A half that stands
alone is none. -/
def readUnicode? (cs : List Char) : Option (Option Char × List Char) := do
  let (unit, rest) ← readUnit? cs
  if 0xD800 ≤ unit && unit < 0xDC00 then
    match readPair? unit rest with
    | some (c, after) => pure (some c, after)
    | none => pure (none, rest)
  else if 0xDC00 ≤ unit && unit < 0xE000 then pure (none, rest)
  else pure (some (Char.ofNat unit), rest)

def simpleEscape? : Char → Option Char
  | '"' => some '"'
  | '\\' => some '\\'
  | '/' => some '/'
  | 'b' => some '\x08'
  | 'f' => some '\x0c'
  | 'n' => some '\n'
  | 'r' => some '\r'
  | 't' => some '\t'
  | _ => none

def readEscape? : List Char → Option (Option Char × List Char)
  | 'u' :: rest => readUnicode? rest
  | c :: rest => (simpleEscape? c).map fun found => (some found, rest)
  | [] => none

/-- The characters up to the closing quote. Every step consumes at least one character, so the
length of the text bounds the steps. -/
def readCharacters? : Nat → List Char → Option (List (Option Char) × List Char)
  | _, '"' :: rest => some ([], rest)
  | steps + 1, '\\' :: rest => do
    let (c, after) ← readEscape? rest
    let (more, final) ← readCharacters? steps after
    pure (c :: more, final)
  | steps + 1, c :: rest =>
    if c.toNat < 0x20 then none
    else (readCharacters? steps rest).map fun found => (some c :: found.1, found.2)
  | _, _ => none

def readText? (cs : List Char) : Option (Option String × List Char) :=
  (readCharacters? cs.length cs).map fun found =>
    ((found.1.mapM id).map String.ofList, found.2)

def ofText? : Option String → Json
  | some s => .text s
  | none => .unreadable

def ofFields (fields : List (Option String × Json)) : Json :=
  match fields.mapM fun field => field.1.map fun key => (key, field.2) with
  | some fields => .record fields
  | none => .unreadable

def within (depth : Nat) (value : Json) : Json := if depth = 0 then .unreadable else value

def readWord? (word : String) (value : Json) (cs : List Char) : Option (Json × List Char) :=
  if word.toList.isPrefixOf cs then some (value, cs.drop word.length) else none

mutual

/-- One value at the front. The first number bounds the steps; the second is how many brackets may
still be opened. -/
def readValue? : Nat → Nat → List Char → Option (Json × List Char)
  | 0, _, _ => none
  | steps + 1, depth, cs =>
    match skipSpace cs with
    | [] => none
    | '"' :: rest => (readText? rest).map fun found => (ofText? found.1, found.2)
    | '[' :: rest =>
      match skipSpace rest with
      | ']' :: after => some (within depth (.list []), after)
      | _ =>
        (readItems? steps (depth - 1) rest).map fun found => (within depth (.list found.1), found.2)
    | '\x7b' :: rest =>
      match skipSpace rest with
      | '\x7d' :: after => some (within depth (.record []), after)
      | _ =>
        (readFields? steps (depth - 1) rest).map fun found =>
          (within depth (ofFields found.1), found.2)
    | c :: rest =>
      if c = 'n' then readWord? "null" .null (c :: rest)
      else if c = 't' then readWord? "true" (.bool true) (c :: rest)
      else if c = 'f' then readWord? "false" (.bool false) (c :: rest)
      else (readNumeral? (c :: rest)).map fun found => (found.1.toJson, found.2)

def readItems? : Nat → Nat → List Char → Option (List Json × List Char)
  | 0, _, _ => none
  | steps + 1, depth, cs => do
    let (item, rest) ← readValue? steps depth cs
    match skipSpace rest with
    | ',' :: after =>
      let (more, final) ← readItems? steps depth after
      pure (item :: more, final)
    | ']' :: after => pure ([item], after)
    | _ => none

def readFields? : Nat → Nat → List Char → Option (List (Option String × Json) × List Char)
  | 0, _, _ => none
  | steps + 1, depth, cs =>
    match skipSpace cs with
    | '"' :: name => do
      let (key, afterKey) ← readText? name
      match skipSpace afterKey with
      | ':' :: afterColon =>
        let (value, rest) ← readValue? steps depth afterColon
        match skipSpace rest with
        | ',' :: after =>
          let (more, final) ← readFields? steps depth after
          pure ((key, value) :: more, final)
        | '\x7d' :: after => pure ([(key, value)], after)
        | _ => none
      | _ => none
    | _ => none

end

def parse? (text : String) : Option Json := do
  let cs := text.toList
  let (value, rest) ← readValue? (cs.length + 1) 127 cs
  if (skipSpace rest).isEmpty then pure value else none

end Almanac.Json
