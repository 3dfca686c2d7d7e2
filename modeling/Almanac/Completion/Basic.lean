import Almanac.Completion.Place

/-!
Completing a line. The panel for a line follows from its tokens alone: while the first token is
typed it offers commands, then the words that tell overloads apart, then values for the parameter
at the position that the tokens have reached. In a sub-query the panel is that of the rest of the
line, nested in the panel of the query. The rest is shorter than the line, so the nesting ends.
-/

namespace Almanac

structure Offer where
  table : CommandTable
  rows : List String
  dates : List String

/-- A panel and, for each candidate that can be chosen, the text that is inserted. An insertion
replaces the line from the given byte on. -/
structure Completion where
  panel : Panel
  insertions : List String
  replaceFrom : Nat

namespace Completion

def usageHint : String :=
  "Start typing to reduce completions, use arrows to select, use tab or click to insert"

def nothingFound : String := "No completions could be found"

def hintFor (nested : Bool) : Option String := if nested then none else some usageHint

def extends? (typed : String) (text : String) : Bool := typed.toList.isPrefixOf text.toList

def closed (panel : Panel) (replaceFrom : Nat) : Completion := ⟨panel, [], replaceFrom⟩

def commandCandidate (typed : String) (c : Command) : Candidate where
  text := c.displayName
  typed := Text.byteLength typed
  detail := some (c.arityLabel ++ " — " ++ c.description)

def ofCommands (offer : Offer) (nested : Bool) (typed : String) (replaceFrom : Nat) :
    Completion :=
  let found := (offer.table.visible nested).filter fun c => extends? typed c.name
  let panel : Panel :=
    { header := some "Queries:"
      usageHint := hintFor nested
      candidates := found.map (commandCandidate typed)
      message := if found.isEmpty then some nothingFound else none }
  ⟨panel, found.map Command.insertion, replaceFrom⟩

def ofVariants (head : Token) (overloads : List Command) (panel : Panel) (typed : String)
    (replaceFrom lineEnd : Nat) : Completion :=
  match overloads.head?.bind fun c => c.params.head? with
  | none => closed panel lineEnd
  | some param =>
    let found := (overloads.filterMap Command.discriminant).filter fun d => extends? typed d
    let panel : Panel :=
      { panel with
        signature := some ⟨head.text, [SignatureParam.ofParam param true], true⟩
        valuesHeader := some ("Possible values for " ++ param.name ++ ":")
        candidates := found.map fun d => { text := d, typed := Text.byteLength typed }
        message := if found.isEmpty then some nothingFound else panel.message }
    ⟨panel, found, replaceFrom⟩

def unknownVariant (head : Token) (first : Command) (panel : Panel) (typed : String)
    (lineEnd : Nat) : Completion :=
  let name := (first.params.head?.map Param.name).getD ""
  closed
    { panel with
      signature := some ⟨head.text, [], false⟩
      message := some ("Type " ++ name ++ " doesn't have an enum for " ++ typed) }
    lineEnd

def formatHint : ParamKind → String
  | .string => "string (formatted as \"\" or \"my string\")"
  | .int => "number (formatted as 66213)"
  | .number => "number (formatted as 13 or 23.1)"
  | kind => "Type " ++ kind.word ++ " doesn't have any autocompletable values"

/-- What the tokens of a line lead to: a finished completion, or a panel around that of a
sub-query, with the token at which the sub-query begins if it has begun. -/
inductive Step where
  | done (completion : Completion)
  | nest (panel : Panel) (start : Option Token)

def ofValues (panel : Panel) (spot : Place) (values : List String) : Completion where
  panel := { panel with candidates := values.map fun v => { text := v, typed := spot.typed } }
  insertions := values
  replaceFrom := spot.start

def quoteRow (row : String) : String := "`" ++ row ++ "`"

/-- The rows that a typed text may become, in back-ticks. A text with its closing back-tick
becomes no other. -/
def rowsFor (rows : List String) (entered : String) : List String :=
  (rows.filter fun row => extends? entered ("`" ++ row)).map quoteRow

def ofArguments (offer : Offer) (line : List Char) (head : Token) (tail : List Token)
    (c : Command) (panel : Panel) : Step :=
  let second := secondBegun offer.table (head :: tail)
  let current := currentParam line (head :: tail) c second
  let param := c.params[current]?
  let panel : Panel :=
    { panel with
      signature := some (signature head c current second)
      valuesHeader := valuesHeader param }
  let spot := place line (tail.getLast?.getD head)
  let entered := (tail[current]?).elim "" Token.text
  match param.map Param.kind with
  | some .row => .done (ofValues panel spot (rowsFor offer.rows entered))
  | some .date => .done (ofValues panel spot (offer.dates.filter (extends? entered)))
  | some .subQuery => .nest panel (subQueryToken? offer.table tail c second)
  | some kind => .done (closed { panel with message := some (formatHint kind) } spot.start)
  | none =>
    -- Behind the last parameter only a sub-query can go on.
    if c.hasSubQueryTail then .nest panel (subQueryToken? offer.table tail c second)
    else
      .done
        (closed { panel with message := some ("Query " ++ c.name ++ " takes no more arguments") }
          spot.start)

def typingVariant (line : List Char) (tail : List Token) : Bool :=
  tail.isEmpty || (tail.length = 1 && !endsWithSeparator line)

def ofHead (offer : Offer) (nested : Bool) (line : List Char) (head : Token)
    (tail : List Token) : Step :=
  let lineEnd := Text.width line
  match offer.table.visibleOverloads head.text nested with
  | [] => .done (closed { message := some nothingFound } lineEnd)
  | first :: more =>
    let panel : Panel :=
      { header := some ("Query " ++ first.name ++ " documentation:")
        usageHint := hintFor nested }
    if more.isEmpty then ofArguments offer line head tail first panel
    else if typingVariant line tail then
      match tail with
      | [] => .done (ofVariants head (first :: more) panel "" lineEnd lineEnd)
      | t :: _ => .done (ofVariants head (first :: more) panel t.text t.start lineEnd)
    else
      let chosen := tail.head?.map Token.text
      match (first :: more).find? fun c => c.discriminant = chosen with
      | some c => ofArguments offer line head tail c panel
      | none => .done (unknownVariant head first panel (chosen.getD "") lineEnd)

def step (offer : Offer) (nested : Bool) (line : List Char) : Step :=
  match Token.scan line with
  | [] => .done (ofCommands offer nested "" (Text.width line))
  | head :: tail =>
    if tail.isEmpty && !endsWithSeparator line then
      .done (ofCommands offer nested head.text head.start)
    else ofHead offer nested line head tail

theorem mem_of_ofArguments {offer : Offer} {line : List Char} {head : Token} {tail : List Token}
    {c : Command} {panel outer : Panel} {t : Token}
    (h : ofArguments offer line head tail c panel = .nest outer (some t)) : t ∈ tail := by
  simp only [ofArguments] at h
  split at h
  case h_3 =>
    injection h with _ h
    exact mem_of_subQueryToken? h
  case h_5 =>
    split at h
    · injection h with _ h
      exact mem_of_subQueryToken? h
    · contradiction
  all_goals contradiction

theorem mem_of_ofHead {offer : Offer} {nested : Bool} {line : List Char} {head : Token}
    {tail : List Token} {outer : Panel} {t : Token}
    (h : ofHead offer nested line head tail = .nest outer (some t)) : t ∈ tail := by
  simp only [ofHead] at h
  split at h
  · contradiction
  · split at h
    · exact mem_of_ofArguments h
    · split at h
      · split at h <;> contradiction
      · split at h
        · exact mem_of_ofArguments h
        · contradiction

def subLine (line : List Char) : Option Token → List Char
  | none => []
  | some t => t.suffix line

/-- A sub-query takes less than the line. -/
theorem length_subLine_lt {offer : Offer} {nested : Bool} {line : List Char} {outer : Panel}
    {start : Option Token} (h : step offer nested line = .nest outer start) :
    (subLine line start).length < line.length := by
  simp only [step] at h
  split at h
  · contradiction
  · rename_i head tail hscan
    split at h
    · contradiction
    · cases start with
      | none =>
        cases line with
        | nil => simp [Token.scan, Text.pieces, Token.ofPieces] at hscan
        | cons => simp [subLine]
      | some t =>
        have := mem_of_ofHead h
        exact Token.length_suffix_lt (by rw [hscan]; exact this)

/-- The completion of a line, which is nested in a query or not. -/
def ofLine (offer : Offer) (nested : Bool) (line : List Char) : Completion :=
  match h : step offer nested line with
  | .done completion => completion
  | .nest panel start =>
    have := length_subLine_lt h
    let inner := ofLine offer true (subLine line start)
    let offset := start.elim (Text.width line) Token.start
    ⟨{ panel with nested := some inner.panel }, inner.insertions, offset + inner.replaceFrom⟩
termination_by line.length

end Completion

end Almanac
