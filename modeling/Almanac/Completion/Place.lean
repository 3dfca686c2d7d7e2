import Almanac.Completion.Panel
import Almanac.Query.Token.Position
import Almanac.Table.Basic

/-!
The place in a line at which something is being typed: which token it belongs to, which parameter
of the command it is for, and where a sub-query begins. All of this follows from the number of
tokens, from what ends the line and from the command words in it.
-/

namespace Almanac.Completion

/-- Where the last token is typed: how many bytes of it there are and where it starts. After a
separator a new one starts at the end of the line. -/
structure Place where
  typed : Nat
  start : Nat

def place (line : List Char) (last : Token) : Place :=
  if endsWithSeparator line then ⟨0, Text.width line⟩
  else ⟨Text.byteLength last.text, last.start⟩

/-- The index of the last sub-query parameter that has been reached, for a command with two of
them: the second one counts once its command word stands in the line. -/
def slot (c : Command) (second : Bool) : Nat := c.params.length - (if second then 1 else 2)

/-- The index of the parameter being typed. A last token counts as finished when a separator
follows it outside of quotes. -/
def currentParam (line : List Char) (tokens : List Token) (c : Command) (second : Bool) : Nat :=
  let finished := endsWithSeparator line && !hasOpenQuote line
  let position := tokens.length - (if finished then 1 else 2)
  if c.subQuerySlots = 2 then
    match c.firstSubQuery? with
    | some first => if first ≤ position then slot c second else position
    | none => position
  else position

def signature (head : Token) (c : Command) (current : Nat) (second : Bool) : Signature where
  command := head.text
  -- Sub-queries that have been reached are highlighted until the second one has begun.
  params := c.params.mapIdx fun i p =>
    .ofParam p ((i ≤ current && p.kind = .subQuery && !second) || i = current)

def valuesHeader (param : Option Param) : Option String :=
  match param with
  | none => none
  | some p =>
    if p.kind = .subQuery then none
    else
      some ("Possible values for " ++ p.name ++ (if p.optional then " (optional)" else "") ++ ":")

/-- Three command words in a line are those of a query and of both its sub-queries. -/
def secondBegun (table : CommandTable) (tokens : List Token) : Bool :=
  3 ≤ tokens.countP fun t => table.isCommandName t.text

/-- The index of the token at which the sub-queries begin, that of the command word being 0. -/
def opening (c : Command) : Nat :=
  if c.subQuerySlots = 2 then c.params.length - 1 else c.params.length

def subQueryToken? (table : CommandTable) (tail : List Token) (c : Command) (second : Bool) :
    Option Token :=
  let opening := tail[opening c - 1]?
  if c.subQuerySlots = 2 && second then
    ((tail.filter fun t => table.isCommandName t.text).getLast?).or opening
  else opening

theorem mem_of_subQueryToken? {table : CommandTable} {tail : List Token} {c : Command}
    {second : Bool} {t : Token} (h : subQueryToken? table tail c second = some t) : t ∈ tail := by
  simp only [subQueryToken?] at h
  split at h
  · rcases Option.or_eq_some_iff.1 h with h | ⟨_, h⟩
    · exact (List.mem_filter.1 (List.mem_of_getLast? h)).1
    · exact List.mem_of_getElem? h
  · exact List.mem_of_getElem? h

end Almanac.Completion
