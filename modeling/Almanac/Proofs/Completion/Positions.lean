import Almanac.Proofs.Completion.Steps
import Almanac.Proofs.Query.Cutting
import Almanac.Proofs.Query.Parsing
import Almanac.Proofs.Table.Index

/-!
Completion by positions. Tokens, overloads and parameters are looked up where they stand in their
lists, counts are taken from counts, and the part of a line that belongs to a sub-query is cut off
at a byte. Here a position out of range, a count below zero and a cut within a character leave no
completion at all. A line is never left without one, and it is completed as it is otherwise.
-/

namespace Almanac

namespace Text

/-- What is left behind so many bytes, which have to be those of whole characters. -/
def dropWidth? : Nat → List Char → Option (List Char)
  | 0, cs => some cs
  | _ + 1, [] => none
  | n + 1, c :: rest =>
    if c.utf8Size ≤ n + 1 then dropWidth? (n + 1 - c.utf8Size) rest else none

theorem dropWidth?_width_append (left right : List Char) :
    dropWidth? (width left) (left ++ right) = some right := by
  induction left with
  | nil => rw [width, List.nil_append, dropWidth?]
  | cons c left ih =>
    obtain ⟨n, hn⟩ := Nat.exists_eq_add_one.mpr
      (Nat.lt_of_lt_of_le c.utf8Size_pos (Nat.le_add_right _ (width left)))
    have hrest : n + 1 - c.utf8Size = width left := by omega
    rw [width, hn, List.cons_append, dropWidth?, if_pos (by omega), hrest, ih]

end Text

namespace Completion

variable {offer : Offer} {nested : Bool} {line : List Char}

def less? (count taken : Nat) : Option Nat :=
  if taken ≤ count then some (count - taken) else none

def opening? (c : Command) : Option Nat :=
  if c.subQuerySlots = 2 then less? c.params.length 1 else some c.params.length

def startBy? (table : CommandTable) (tokens : List Token) (c : Command) (second : Bool) :
    Option (Option Token) := do
  let opening ← opening? c
  let word :=
    if c.subQuerySlots = 2 && second then
      lastIndex? (fun t => table.isCommandName t.text) tokens
    else none
  pure tokens[word.getD opening]?

def argumentsBy? (offer : Offer) (line : List Char) (tokens : List Token) (c : Command)
    (panel : Panel) : Option Step := do
  let head ← tokens[0]?
  let last ← tokens[← less? tokens.length 1]?
  let second := secondBegun offer.table tokens
  let current := currentParam line tokens c second
  let panel := described panel head c current second
  let spot := place line last
  let entered := (tokens[current + 1]?).elim "" Token.text
  match (c.params[current]?).map Param.kind with
  | some .row => pure (.done (ofValues panel spot (rowsFor offer.rows entered)))
  | some .date => pure (.done (ofValues panel spot (offer.dates.filter (extends? entered))))
  | some .subQuery => pure (.nest panel (← startBy? offer.table tokens c second))
  | some kind => pure (.done (closed { panel with message := some (formatHint kind) } spot.start))
  | none =>
    if c.hasSubQueryTail then pure (.nest panel (← startBy? offer.table tokens c second))
    else
      pure
        (.done
          (closed { panel with message := some ("Query " ++ c.name ++ " takes no more arguments") }
            spot.start))

def variantsBy? (tokens : List Token) (overloads : List Command) (panel : Panel)
    (lineEnd : Nat) : Option Step := do
  let _first ← overloads[0]?
  let head ← tokens[0]?
  let typing := tokens[1]?
  pure
    (.done
      (ofVariants head overloads panel (typing.elim "" Token.text)
        (typing.elim lineEnd Token.start) lineEnd))

def stepBy? (offer : Offer) (nested : Bool) (line : List Char) : Option Step := do
  let tokens := Token.scan line
  let lineEnd := Text.width line
  let spaced := endsWithSeparator line
  if tokens.isEmpty || (tokens.length = 1 && !spaced) then
    let typing := tokens[0]?
    pure
      (.done
        (ofCommands offer nested (typing.elim "" Token.text) (typing.elim lineEnd Token.start)))
  else
    let head ← tokens[0]?
    let named ← offer.table.lookUpAll? head.text
    let overloads := named.filter fun c => c.visibleIn nested
    match overloads[0]? with
    | none => pure (.done (closed { message := some nothingFound } lineEnd))
    | some first =>
      let panel := titled first.name nested
      if 1 < overloads.length then
        if (tokens.length = 1 && spaced) || (tokens.length = 2 && !spaced) then
          variantsBy? tokens overloads panel lineEnd
        else
          let chosen := tokens[1]?.map Token.text
          match overloads.find? fun c => c.discriminant = chosen with
          | some c => argumentsBy? offer line tokens c panel
          | none => pure (.done (unknownVariant head first panel (chosen.getD "") lineEnd))
      else argumentsBy? offer line tokens first panel

def completeWithin? (offer : Offer) : Nat → Bool → List Char → Option Completion
  | 0, _, _ => none
  | levels + 1, nested, line => do
    match ← stepBy? offer nested line with
    | .done completion => pure completion
    | .nest panel start =>
      let offset := subOffset line start
      let rest ← Text.dropWidth? offset line
      pure (around panel offset (← completeWithin? offer levels true rest))

/-- Completes a line by positions. -/
def complete? (offer : Offer) (nested : Bool) (line : List Char) : Option Completion :=
  completeWithin? offer (line.length + 1) nested line

/-! Every position is in range -/

variable {head : Token} {tail : List Token} {c : Command}

theorem getElem?_lastIndex? {α : Type} (p : α → Bool) (items : List α) :
    ((lastIndex? p items).bind fun i => items[i]?) = (items.filter p).getLast? := by
  induction items with
  | nil => rfl
  | cons x rest ih =>
    rw [lastIndex?, List.filter_cons]
    cases hlast : lastIndex? p rest with
    | some i =>
      rw [hlast, Option.bind_some, List.getElem?_eq_getElem (lastIndex?_lt hlast)] at ih
      simp only [Option.bind_some, List.getElem?_cons_succ]
      rw [List.getElem?_eq_getElem (lastIndex?_lt hlast), ih]
      split
      · rw [List.getLast?_cons, ← ih, Option.getD_some]
      · rfl
    | none =>
      rw [hlast, Option.bind_none] at ih
      rw [List.getLast?_eq_none_iff.mp ih.symm]
      cases p x <;> rfl

theorem opening?_eq (hslots : c.subQueryParams ≠ []) :
    ∃ n, opening? c = some (n + 1) ∧ opening c = n + 1 := by
  have hpos : 0 < c.subQuerySlots := List.length_pos_of_ne_nil hslots
  have hlength := c.length_params
  refine ⟨opening c - 1, ?_, ?_⟩ <;> unfold opening
  · unfold opening? less?
    split
    · rw [if_pos (by omega)]
      congr 1
      omega
    · congr 1
      omega
  · split <;> omega

/-- The last command word of a line that has three of them is not its first token. -/
theorem startBy?_eq {table : CommandTable} {second : Bool} (hslots : c.subQueryParams ≠ [])
    (hsecond : secondBegun table (head :: tail) = second) :
    startBy? table (head :: tail) c second = some (subQueryToken? table tail c second) := by
  obtain ⟨n, hopening, hn⟩ := opening?_eq hslots
  unfold startBy? subQueryToken?
  rw [hopening, hn]
  by_cases hboth : (c.subQuerySlots = 2 && second) = true
  · have hthree := (Bool.and_eq_true_iff.mp hboth).2
    rw [← hsecond, secondBegun, decide_eq_true_iff, List.countP_cons] at hthree
    have hlast := getElem?_lastIndex? (fun t => table.isCommandName t.text) tail
    obtain ⟨i, hi⟩ : ∃ i, lastIndex? (fun t => table.isCommandName t.text) tail = some i := by
      rw [← Option.ne_none_iff_exists']
      intro hnone
      rw [hnone, Option.bind_none, eq_comm, List.getLast?_eq_none_iff,
        ← List.length_eq_zero_iff, ← List.countP_eq_length_filter] at hlast
      split at hthree <;> omega
    rw [hi, Option.bind_some] at hlast
    simp [hboth, lastIndex?, hi, ← hlast, List.getElem?_eq_getElem (lastIndex?_lt hi)]
  · simp [hboth]

theorem subQueryParams_ne_nil_of_mem {p : Param} (hp : p ∈ c.params) (hkind : p.kind = .subQuery) :
    c.subQueryParams ≠ [] :=
  List.ne_nil_of_mem (List.mem_filter.mpr ⟨hp, decide_eq_true hkind⟩)

theorem argumentsBy?_eq (panel : Panel) :
    argumentsBy? offer line (head :: tail) c panel =
      some (ofArguments offer line head tail c panel) := by
  have hcount : less? (head :: tail).length 1 = some tail.length := by
    simp [less?]
  have hlast : (head :: tail)[tail.length]? = some (tail.getLast?.getD head) := by
    cases tail with
    | nil => rfl
    | cons t rest => simp [List.getLast?_eq_getElem?]
  generalize hsecond : secondBegun offer.table (head :: tail) = second
  have hstart (hslots : c.subQueryParams ≠ []) := startBy?_eq hslots hsecond
  unfold argumentsBy? ofArguments described
  rw [hsecond]
  simp only [hcount, hlast, List.getElem?_cons_zero, List.getElem?_cons_succ, Option.bind_eq_bind,
    Option.bind_some, Option.pure_def]
  generalize currentParam line (head :: tail) c second = current
  cases hparam : c.params[current]? with
  | some p =>
    cases hkind : p.kind with
    | subQuery =>
      have hslots := subQueryParams_ne_nil_of_mem (List.mem_of_getElem? hparam) hkind
      simp only [Option.map_some, hkind, hstart hslots, Option.bind_some]
    | _ => simp only [Option.map_some, hkind]
  | none =>
    simp only [Option.map_none]
    split
    · rename_i htail
      obtain ⟨p, hp, hkind⟩ := (Option.any_eq_true _ _).mp htail
      have hslots :=
        subQueryParams_ne_nil_of_mem (List.mem_of_getLast? hp) (of_decide_eq_true hkind)
      rw [hstart hslots, Option.bind_some]
    · rfl

theorem variantsBy?_eq {first : Command} {more : List Command} (panel : Panel) (lineEnd : Nat) :
    variantsBy? (head :: tail) (first :: more) panel lineEnd =
      some (.done (ofVariants head (first :: more) panel (tail.head?.elim "" Token.text)
        (tail.head?.elim lineEnd Token.start) lineEnd)) := by
  cases tail <;> rfl

theorem stepBy?_eq (offer : Offer) (nested : Bool) (line : List Char) :
    stepBy? offer nested line = some (step offer nested line) := by
  unfold stepBy? step
  cases Token.scan line with
  | nil => rfl
  | cons head tail =>
    by_cases hword : tail = [] ∧ endsWithSeparator line = false
    · obtain ⟨rfl, hopen⟩ := hword
      simp [hopen]
    · have htail : (tail.isEmpty && !endsWithSeparator line) = false := by
        simpa using hword
      have hbegun : ((head :: tail).isEmpty ||
          decide ((head :: tail).length = 1) && !endsWithSeparator line) = false := by
        simpa using hword
      simp only [hbegun, htail, Bool.false_eq_true, if_false, List.getElem?_cons_zero,
        Option.bind_eq_bind, Option.bind_some, CommandTable.lookUpAll?_eq_overloads]
      rw [← CommandTable.visibleOverloads]
      unfold ofHead
      cases offer.table.visibleOverloads head.text nested with
      | nil => rfl
      | cons first more =>
        simp only [List.getElem?_cons_zero, variantsBy?_eq, argumentsBy?_eq]
        cases more with
        | nil => rfl
        | cons second more =>
          have hmany : 1 < (first :: second :: more).length := by simp
          have htyping : (decide ((head :: tail).length = 1) && endsWithSeparator line ||
              decide ((head :: tail).length = 2) && !endsWithSeparator line) =
                typingVariant line tail := by
            unfold typingVariant
            cases tail with
            | nil =>
              have hspaced : endsWithSeparator line = true := by simpa using hword
              simp [hspaced]
            | cons t rest => simp
          have hnext : (head :: tail)[1]? = tail.head? := by cases tail <;> rfl
          simp only [hmany, htyping, hnext, if_true, List.isEmpty_cons, Bool.false_eq_true,
            if_false]
          cases typingVariant line tail with
          | true => cases tail <;> rfl
          | false =>
            simp only [Bool.false_eq_true, if_false]
            cases (first :: second :: more).find? fun c =>
              c.discriminant = tail.head?.map Token.text <;> rfl

/-- The part of a line that belongs to a sub-query is a proper end of it. -/
theorem exists_front_of_nest {panel : Panel} {start : Option Token}
    (h : step offer nested line = .nest panel start) :
    ∃ front, front ≠ [] ∧ line = front ++ subLine line start ∧
      Text.width front = subOffset line start := by
  cases start with
  | none =>
    have hshorter := length_subLine_lt h
    exact ⟨line, List.ne_nil_of_length_pos (Nat.zero_lt_of_lt hshorter),
      (List.append_nil line).symm, rfl⟩
  | some t =>
    obtain ⟨head, tail, _, _, _, hat, _, _, hstart⟩ := exists_atArgument_of_nest h
    have hscan := hat.begun.scan
    have hmem : t ∈ tail := mem_of_subQueryToken? hstart.symm
    obtain ⟨xs, ys, hsplit⟩ := List.append_of_mem hmem
    obtain ⟨front, back, hcut⟩ : ∃ front back, Token.Cut line front back (head :: xs) t ys :=
      Token.exists_cut (by rw [hscan, hsplit, List.cons_append])
    refine ⟨front, ?_, ?_, hcut.start_eq⟩
    · rintro rfl
      have hnone := hcut.before
      simp [Token.scan, Text.pieces, Token.ofPieces] at hnone
    · have hline := hcut.line_eq
      rw [List.append_assoc] at hline
      have hsuffix : t.suffix line = t.text.toList ++ back := by
        rw [Token.suffix, ← hcut.start_eq, hline, Text.dropWidth_width_append]
      rw [subLine, hsuffix]
      exact hline

/-- As many levels are enough as there are characters, since what is left from a sub-query on is
shorter than the line. -/
theorem completeWithin?_eq {levels : Nat} (h : line.length < levels) :
    completeWithin? offer levels nested line = some (ofLine offer nested line) := by
  induction levels generalizing nested line with
  | zero => exact absurd h (Nat.not_lt_zero _)
  | succ levels ih =>
    rw [completeWithin?, stepBy?_eq]
    cases hstep : step offer nested line with
    | done completion =>
      rw [ofLine_done hstep]
      rfl
    | nest panel start =>
      have hshorter := length_subLine_lt hstep
      obtain ⟨front, -, hline, hwidth⟩ := exists_front_of_nest hstep
      have hrest : Text.dropWidth? (subOffset line start) line = some (subLine line start) := by
        rw [← hwidth]
        conv_lhs => rw [hline]
        exact Text.dropWidth?_width_append _ _
      have hinner : completeWithin? offer levels true (subLine line start) =
          some (ofLine offer true (subLine line start)) :=
        ih (by omega)
      simp only [Option.bind_eq_bind, Option.bind_some, hrest, hinner]
      rw [ofLine_nest hstep]
      rfl

theorem complete?_eq (offer : Offer) (nested : Bool) (line : List Char) :
    complete? offer nested line = some (ofLine offer nested line) :=
  completeWithin?_eq (Nat.lt_succ_self _)

end Completion

end Almanac
