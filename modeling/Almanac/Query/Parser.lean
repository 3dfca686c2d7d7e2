import Almanac.Query.Argument
import Almanac.Table.Basic

/-!
From tokens to a query. The first token names the command and, together with the second, selects
an overload of it. The positional parameters take one token each, and what is left over belongs
to the sub-queries: all of it to a single one, and for two the second one starts at the last
token that is a command word. Sub-queries are read before the arguments are checked.
-/

namespace Almanac

def lastIndex? {α : Type} (p : α → Bool) : List α → Option Nat
  | [] => none
  | x :: rest =>
    match lastIndex? p rest with
    | some i => some (i + 1)
    | none => if p x then some 0 else none

namespace Query

/-- The position at which the second of two sub-queries starts. -/
def secondStart? (table : CommandTable) (tokens : List Token) : Option Nat :=
  lastIndex? (fun t => table.isCommandName t.text) tokens

def runSpan (head : Token) (tail : List Token) : Span :=
  head.span.cover ((tail.getLast?.getD head).span)

def unresolved (table : CommandTable) (nested : Bool) (head : Token) (next : Option Token) :
    Fault :=
  match table.visibleOverloads head.text nested with
  | [] =>
    if (table.overloads head.text).isEmpty then ⟨.unknownCommand head.text, nested, head.span⟩
    else ⟨.notSubQuery head.text, nested, head.span⟩
  | c :: more =>
    let expected := (c :: more).filterMap Command.discriminant
    let param :=
      match c.params with
      | [] => "variant"
      | p :: _ => if p.kind = .enum then p.name else "variant"
    match next with
    | some token =>
      ⟨.unknownVariant head.text param token.text expected, nested, head.span.cover token.span⟩
    | none => ⟨.missingVariant head.text param expected, nested, head.span⟩

def missing (c : Command) (param : Param) (nested : Bool) (stop : Nat) : Fault :=
  ⟨.missingSubQuery c.name param.name, nested, .empty stop⟩

def tooMany (c : Command) (nested : Bool) (tail : List Token) : Fault :=
  let names := c.params.map Param.name
  let span :=
    match tail.drop c.params.length with
    | [] => .empty 0
    | first :: more => runSpan first more
  ⟨.tooManyArguments c.name names tail.length, nested, span⟩

/-- How the tokens after the arguments of a command are divided: the runs that must be queries
of their own, and what is wrong even when they are. -/
structure Division where
  runs : List (List Token)
  fault : Option Fault

def divideInTwo (table : CommandTable) (first last : Fault) (rest : List Token) : Division :=
  match secondStart? table rest with
  | none => if rest.isEmpty then ⟨[], some first⟩ else ⟨[rest], some last⟩
  -- The only command word is that of the first sub-query.
  | some 0 => ⟨[], some last⟩
  | some (i + 1) => ⟨[rest.take (i + 1), rest.drop (i + 1)], none⟩

def divide (table : CommandTable) (c : Command) (nested : Bool) (stop : Nat)
    (tail : List Token) : Division :=
  let rest := tail.drop c.positional.length
  match c.subQueryParams with
  | [] => ⟨[], if c.params.length < tail.length then some (tooMany c nested tail) else none⟩
  | [param] => if rest.isEmpty then ⟨[], some (missing c param nested stop)⟩ else ⟨[rest], none⟩
  | first :: second :: more =>
    divideInTwo table (missing c first nested stop)
      (missing c (more.getLastD second) nested stop) rest

theorem length_le_of_mem_divideInTwo {table : CommandTable} {first last : Fault}
    {rest run : List Token} (h : run ∈ (divideInTwo table first last rest).runs) :
    run.length ≤ rest.length := by
  simp only [divideInTwo] at h
  split at h
  · split at h
    · simp at h
    · simp only [List.mem_singleton] at h
      exact h ▸ Nat.le_refl _
  · simp at h
  · simp only [List.mem_cons, List.not_mem_nil, or_false] at h
    rcases h with rfl | rfl <;> simp only [List.length_take, List.length_drop] <;> omega

/-- No run is longer than what it was divided from. -/
theorem length_le_of_mem_divide {table : CommandTable} {c : Command} {nested : Bool} {stop : Nat}
    {tail run : List Token} (h : run ∈ (divide table c nested stop tail).runs) :
    run.length ≤ tail.length := by
  simp only [divide] at h
  split at h
  · simp at h
  · split at h
    · simp at h
    · simp only [List.mem_singleton] at h
      subst h
      simp
  · have := length_le_of_mem_divideInTwo h
    simp only [List.length_drop] at this
    omega

/-- The query that a list of tokens stands for, in a line of the given length and for a dataset
of so many days. -/
def ofTokens (table : CommandTable) (days lineLength : Nat) (nested : Bool) :
    List Token → Except Fault Query
  | [] => .error ⟨.emptyQuery, nested, .empty lineLength⟩
  | head :: tail =>
    match table.resolve head.text (tail.head?.map Token.text) nested with
    | none => .error (unresolved table nested head tail.head?)
    | some c =>
      let span := runSpan head tail
      if tail.length < c.required.length then
        .error ⟨.tooFewArguments c.name (c.required.map Param.name) tail.length, nested, span⟩
      else
        let division := divide table c nested span.stop tail
        match division.runs.attach.mapM fun run => ofTokens table days lineLength true run.1 with
        | .error e => .error e
        | .ok subQueries =>
          match division.fault with
          | some fault => .error fault
          | none =>
            match Argument.bindAll days c.name nested c.positional tail with
            | .error e => .error e
            | .ok args => .ok ⟨c.name, c.discriminant, args, subQueries, span⟩
termination_by tokens => tokens.length
decreasing_by
  have := length_le_of_mem_divide run.2
  simp only [List.length_cons]
  omega

def parse (table : CommandTable) (days : Nat) (nested : Bool) (line : String) :
    Except Fault Query :=
  ofTokens table days (Text.byteLength line) nested (tokenize line)

def isValid (table : CommandTable) (days : Nat) (nested : Bool) (line : String) : Bool :=
  match parse table days nested line with
  | .ok _ => true
  | .error _ => false

end Query

end Almanac
