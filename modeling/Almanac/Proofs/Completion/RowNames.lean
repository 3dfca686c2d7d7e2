import Almanac.Completion.Suggestion
import Almanac.Proofs.Completion.Continuation
import Almanac.Proofs.Decimal.Integer

/-!
Rows that are asked for by name. Completion writes the name in back-ticks, and a text in back-ticks
is read as the row of that name, whatever quotes and back-ticks there are in it. But back-ticks
keep no blanks together: a name with a blank makes more than one token, and the last of them, with
the closing back-tick, is no date. The written form of a dataset allows for such names.
-/

namespace Almanac

open CommandTable

namespace Argument

theorem getLast?_of_isDate {days : Nat} {text : String} (h : IsDate days text) :
    ∀ c ∈ text.toList.getLast?, c.isDigit = true ∨ c = '-' := by
  rcases h with ⟨-, place, hplace, -⟩ | ⟨-, hiso⟩
  · exact fun c hc => .inl ((Decimal.of_readInteger? hplace).1 c hc)
  · exact fun c hc => (of_isIsoDate hiso).2.1 c (List.mem_of_getLast? hc)

end Argument

namespace Query

open Completion Grammar Token

variable {days : Nat} {row : String}

theorem exists_min : ∃ c ∈ builtin.commands, c.name = "min" ∧ c.discriminant = none ∧
    c.params = rowAndDates := by
  decide

theorem isValid_min_iff {line : String} {args : List String}
    (h : (tokenize line).map text = "min" :: args) :
    isValid builtin days false line = true ↔ Days days args := by
  obtain ⟨head, tail, htokens, hhead, rfl⟩ := List.map_eq_cons_iff.mp h
  obtain ⟨c, hmem, hname, hbare, hparams⟩ := exists_min
  have hresolve := resolve_of_bare hmem hbare c.visibleIn_false (tail.head?.map Token.text)
  rw [hname, ← hhead] at hresolve
  rw [isValid_iff, htokens, forms_cons_iff]
  simp only [hresolve, Option.some.injEq, exists_eq_left', follows_rowAndDates hparams]

theorem tokenize_min (row : String) :
    tokenize ("min " ++ quoteRow row) =
      ⟨"min", 0⟩ :: (scan (quoteRow row).toList).map (·.shift 4) := by
  have hmin : Settled (lineOf ["min"]) := settled_lineOf (by decide)
  rw [tokenize, String.toList_append]
  exact scan_append hmin _

/-- The name of a row can be asked for if it has no blank in it. -/
theorem isValid_quoteRow_iff :
    isValid builtin days false ("min " ++ quoteRow row) = true ↔ ' ' ∉ row.toList := by
  have htexts : (tokenize ("min " ++ quoteRow row)).map text =
      "min" :: (scan (quoteRow row).toList).map text := by
    rw [tokenize_min, List.map_cons, List.map_map]
    rfl
  rw [isValid_min_iff htexts]
  constructor
  · intro hdays hblank
    obtain ⟨front, back, hsplit, hfront⟩ := List.eq_append_cons_of_mem hblank
    have hplain : Plain (String.ofList ('`' :: front)) := by simp [Plain, opensRun, hfront]
    have hline : (quoteRow row).toList =
        lineOf [String.ofList ('`' :: front)] ++ (back ++ ['`']) := by
      simp [toList_quoteRow, lineOf_singleton, hsplit]
    obtain ⟨before, last, hback, hlast⟩ :=
      @exists_lastText (back ++ ['`']) '`' List.getLast?_concat (by decide)
    rw [hline, map_text_scan_append (settled_lineOf (by simpa using hplain)),
      scan_lineOf (by simpa using hplain), hback] at hdays
    obtain ⟨first, dates, hargs, -, -, hdates⟩ := days_iff.mp hdays
    obtain ⟨-, rfl⟩ := List.cons.inj hargs
    rcases Argument.getLast?_of_isDate (hdates last (by simp)) '`' hlast with hdigit | hminus
    · cases hdigit
    · cases hminus
  · intro hblank
    rw [scan_of_plain (plain_quoteRow hblank)]
    exact .whole (isRow_quoteRow row)

theorem byteLength_min (row : String) :
    Text.byteLength ("min " ++ quoteRow row) = 4 + Text.byteLength (quoteRow row) := by
  rw [Text.byteLength, String.toList_append, Text.width_append]
  rfl

/-- Without a blank the row is bound to its name. -/
theorem parse_quoteRow (h : ' ' ∉ row.toList) :
    parse builtin days false ("min " ++ quoteRow row) =
      .ok ⟨"min", none,
        [⟨"row", .row, .row row, quoteRow row,
          ⟨4, Text.byteLength ("min " ++ quoteRow row)⟩⟩], [],
        ⟨0, Text.byteLength ("min " ++ quoteRow row)⟩⟩ := by
  obtain ⟨c, hmem, hname, hbare, hparams⟩ := exists_min
  have hslots : c.subQueryParams = [] := builtin_bare c hmem hbare
  have hpositional : c.positional = rowAndDates :=
    (Command.positional_eq_params hslots).trans hparams
  have htokens : tokenize ("min " ++ quoteRow row) = [⟨"min", 0⟩, ⟨quoteRow row, 4⟩] := by
    rw [tokenize_min, scan_of_plain (plain_quoteRow h)]
    rfl
  have hbound : Argument.readValue days (quoteRow row) .row = .ok (.row row) := by
    rw [Argument.readValue, Argument.unwrapText?_eq_some_iff.mpr (toList_quoteRow row)]
  have hheads : Heads builtin days false ⟨"min", 0⟩ [⟨quoteRow row, 4⟩] c
      [⟨"row", .row, .row row, quoteRow row, ⟨4, Text.byteLength ("min " ++ quoteRow row)⟩⟩]
      [] := by
    refine ⟨hname ▸ resolve_of_bare hmem hbare c.visibleIn_false _, ?_, ?_, ?_⟩
    · rw [Command.required, hpositional]
      exact Nat.le_refl 1
    · rw [divide_of_no_slot hslots, hparams]
      rfl
    · rw [hpositional, byteLength_min]
      simp only [rowAndDates, Argument.bindAll, Argument.bind, Param.required, hbound]
      rfl
  have hordered := pairwise_tokenize ("min " ++ quoteRow row)
  rw [htokens] at hordered
  rw [parse_of_heads htokens c hheads .nil, hname, hbare, runSpan_eq hordered rfl, byteLength_min]
  rfl

end Query

namespace Completion

open Token

/-- Behind the command word every row is offered. -/
theorem ofLine_min {offer : Offer} (htable : offer.table = builtin) :
    (ofLine offer false "min ".toList).insertions = offer.rows.map quoteRow ∧
      (ofLine offer false "min ".toList).replaceFrom = 4 := by
  have htyping : Typing "min ".toList [] := by
    refine ⟨@settled_lineOf ["min"] (by decide), .inl rfl, ?_⟩
    unfold EvenQuotes
    decide
  have hscan : scan "min ".toList = [⟨"min", 0⟩] := by decide
  obtain ⟨c, hmem, hname, hbare, hparams⟩ := Query.exists_min
  have hresolve := resolve_of_bare hmem hbare c.visibleIn_false none
  rw [hname] at hresolve
  obtain ⟨completion, -, hline, -, -, -, hinsertions, hfrom⟩ :=
    ofLine_of_own htable htyping hscan hresolve (.inr (builtin_bare c hmem hbare))
  rw [List.append_nil] at hline
  rw [hline, hinsertions, hfrom, hparams]
  refine ⟨congrArg _ (List.filter_eq_self.mpr fun row _ => ?_), rfl⟩
  exact extends?_iff.mpr (by simp)

/-- A row that a dataset has can be chosen after a command word, and then it stands there in
back-ticks. The line is a query if and only if there is no blank in the name of the row, and then
it asks for the row of that name. -/
theorem row_queried_iff {ds : Dataset} {row : String} (hrow : row ∈ ds.rows)
    (dates : List String) :
    (∃ index, (Suggestion.insert ⟨builtin, ds.rows, dates⟩ false "min ".toList index).completed =
        some ("min " ++ quoteRow row ++ " ").toList) ∧
      (Query.isValid builtin ds.length false ("min " ++ quoteRow row) = true ↔
        ' ' ∉ row.toList) ∧
      (' ' ∉ row.toList → Query.parse builtin ds.length false ("min " ++ quoteRow row) =
        .ok ⟨"min", none,
          [⟨"row", .row, .row row, quoteRow row,
            ⟨4, Text.byteLength ("min " ++ quoteRow row)⟩⟩], [],
          ⟨0, Text.byteLength ("min " ++ quoteRow row)⟩⟩) := by
  refine ⟨?_, Query.isValid_quoteRow_iff, Query.parse_quoteRow⟩
  obtain ⟨hinsertions, hfrom⟩ := @ofLine_min ⟨builtin, ds.rows, dates⟩ rfl
  obtain ⟨index, hindex⟩ := List.getElem?_of_mem (hinsertions ▸ List.mem_map_of_mem hrow)
  refine ⟨index, (Suggestion.completed_insert hindex).trans (congrArg some ?_)⟩
  rw [Suggestion.completedLine, hfrom, String.toList_append, String.toList_append]
  rfl

/-- A row whose name is two words is offered, but it cannot be asked for. -/
theorem row_of_two_words_not_queried :
    ∃ ds, Dataset.parse "date: 2024-04-24\na b: 7\n" = .ok ds ∧ "a b" ∈ ds.rows ∧
      quoteRow "a b" ∈ (ofLine ⟨builtin, ds.rows, ds.dates⟩ false "min ".toList).insertions ∧
      Query.isValid builtin ds.length false ("min " ++ quoteRow "a b") = false := by
  have hrow : "a b" ∈ Dataset.rows ⟨[⟨"date", ["2024-04-24"]⟩, ⟨"a b", ["7"]⟩]⟩ := by decide
  refine ⟨_, rfl, hrow, ?_, ?_⟩
  · rw [(ofLine_min rfl).1]
    exact List.mem_map_of_mem hrow
  · rw [← Bool.not_eq_true, Query.isValid_quoteRow_iff]
    decide

/-- Quotes and back-ticks do no harm in a name. -/
theorem row_queried_iff_quoted :
    ∃ ds, Dataset.parse "date: 2024-04-24\nt\"`max: 7\n" = .ok ds ∧ "t\"`max" ∈ ds.rows ∧
      Query.parse builtin ds.length false ("min " ++ quoteRow "t\"`max") =
        .ok ⟨"min", none, [⟨"row", .row, .row "t\"`max", "`t\"`max`", ⟨4, 12⟩⟩], [], ⟨0, 12⟩⟩ := by
  have hrow : "t\"`max" ∈ Dataset.rows ⟨[⟨"date", ["2024-04-24"]⟩, ⟨"t\"`max", ["7"]⟩]⟩ := by
    decide
  exact ⟨_, rfl, hrow, (row_queried_iff hrow []).2.2 (by decide)⟩

end Completion

end Almanac
