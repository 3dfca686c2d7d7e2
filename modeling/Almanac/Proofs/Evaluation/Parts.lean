import Almanac.Proofs.Evaluation.Rendering
import Almanac.Proofs.Query.Composition
import Almanac.Proofs.Span

/-!
A comparison of two measures of the dataset is put together from two lines. What stands under the
span of a sub-query is by itself a line that is read and answered: nothing that may be nested needs
to be, and where a query stands matters only for the place that is named when it fails. The
comparison says what is to be said of the two answers. It fails like the first of the lines that
fails, with the place moved to where that line stands in the comparison.
-/

namespace Almanac

/-! A sub-query stands by itself -/

namespace Argument

variable {days : Nat} {command : String} {nested other : Bool} {params : List Param}
  {tokens : List Token} {args : List Argument}

/-- The nesting is only told when something is wrong. -/
theorem bindAll_renest (h : bindAll days command nested params tokens = .ok args) :
    bindAll days command other params tokens = .ok args := by
  simp only [bindAll_eq_ok_iff, bind_eq_ok_iff] at h ⊢
  exact h

end Argument

namespace Query

open CommandTable

variable {days lineLength : Nat} {line : String} {q s : Query}

/-- A command that may be nested has no sub-queries, and it is selected alike when it is not. -/
theorem Heads.outer {head : Token} {tail : List Token} {c : Command} {args : List Argument}
    {runs : List (List Token)} (h : Heads builtin days true head tail c args runs) :
    Heads builtin days false head tail c args runs := by
  obtain ⟨hmem, hanswers⟩ := resolve_builtin_iff.mp h.resolved
  obtain ⟨hname, hvisible, hdiscriminant⟩ := Command.answers_iff.mp hanswers
  have hflat : c.subQueryParams = [] :=
    builtin_nested_flat c hmem (by rwa [Command.visibleIn_true] at hvisible)
  refine ⟨?_, h.enough, ?_, Argument.bindAll_renest h.bound⟩
  · exact resolve_builtin_iff.mpr
      ⟨hmem, Command.answers_iff.mpr ⟨hname, c.visibleIn_false, hdiscriminant⟩⟩
  · have hdivided := h.divided
    rw [divide_of_no_slot hflat] at hdivided ⊢
    by_cases hlong : c.params.length < tail.length
    · simp [hlong] at hdivided
    · simpa [hlong] using hdivided

theorem ofTokens_outer {tokens : List Token}
    (h : ofTokens builtin days lineLength true tokens = .ok q) :
    ofTokens builtin days lineLength false tokens = .ok q := by
  cases tokens with
  | nil => exact absurd h ofTokens_nil_ne_ok
  | cons head tail =>
    obtain ⟨c, args, runs, subQueries, hheads, hsubs, hq⟩ := ofTokens_cons_eq_ok_iff.mp h
    exact ofTokens_cons_eq_ok_iff.mpr ⟨c, args, runs, subQueries, hheads.outer, hsubs, hq⟩

/-- What stands under a sub-query is read by itself, without being nested in anything. -/
theorem exists_parse_textIn (h : parse builtin days false line = .ok q) (hs : s ∈ q.subQueries) :
    s.span.Cuts line ∧ ∃ r, parse builtin days false (s.span.textIn line) = .ok r ∧
      r.shift s.span.start = s := by
  obtain ⟨run, hrun, hread⟩ :=
    exists_infix_of_ofTokens h s hs s (mem_nodes_iff.mpr (.inl rfl))
  obtain ⟨front, text, back, hline, hstart, hstop, hparse⟩ :=
    exists_parse_of_infix hrun (ofTokens_outer hread)
  have htext := Span.textIn_eq hline hstart hstop
  exact ⟨Span.cuts_of_split hline hstart hstop, htext ▸ hparse⟩

end Query

/-! What a query asks for does not depend on where it stands -/

def Measure.shift (offset : Nat) (m : Measure) : Measure := { m with span := m.span.shift offset }

theorem Measure.exists_of_shift {q : Query} {offset : Nat} {m : Measure}
    (h : Measure.ofQuery (q.shift offset) = .ok m) :
    ∃ own, Measure.ofQuery q = .ok own ∧ m = own.shift offset := by
  unfold Measure.ofQuery at h ⊢
  simp only [Query.command_shift, Query.span_shift, Query.row?_shift, Query.date?_shift] at h
  cases hkind : Aggregate.ofWord? q.command with
  | none => simp [hkind, Query.lacks] at h
  | some kind =>
    cases hrow : q.row? "row" with
    | none => simp [hkind, hrow, Query.need, Query.lacks] at h
    | some row =>
      simp only [hkind, hrow, Query.need] at h ⊢
      cases kind <;> exact ⟨_, rfl, (Except.ok.inj h).symm⟩

def Diagnostic.shift (offset : Nat) (d : Diagnostic) : Diagnostic :=
  { d with span := d.span.map (·.shift offset) }

/-! What comes of a line that calls no service -/

/-- The line is echoed, and then the value or what is wrong is shown. -/
def Submission.ofResult {α : Type} (line : String) (result : Except Diagnostic α)
    (answer : α → Answer) (output : α → Output) : Submission :=
  match result with
  | .ok value => ⟨some (answer value), [], [.echo line, output value]⟩
  | .error d => ⟨none, [], [.echo line, .error line d]⟩

namespace Environment

variable {env : Environment} {line : String} {q : Query}

def Yields (env : Environment) (line : String) (x : Float) : Prop :=
  (env.submit line).answer = some (.scalar x)

/-- A line is answered with a text, which is shown, and no service is called. -/
def Tells (env : Environment) (line : String) (sentence : String) : Prop :=
  env.submit line = ⟨some (.text sentence), [], [.echo line, .text sentence]⟩

/-- A line fails, what is wrong is shown, and no service is called. -/
def FailsWith (env : Environment) (line : String) (d : Diagnostic) : Prop :=
  env.submit line = ⟨none, [], [.echo line, .error line d]⟩

def reading (env : Environment) (m : Measure) : Except Diagnostic Float :=
  (env.measure m).mapError Failure.toDiagnostic

theorem reading_shift (m : Measure) (offset : Nat) :
    env.reading (m.shift offset) = (env.reading m).mapError (Diagnostic.shift offset) := by
  have hmeasure : env.dataset.measure (m.shift offset) = env.dataset.measure m := rfl
  simp only [reading, measure, hmeasure]
  cases env.dataset.measure m <;> rfl

theorem submit_of_settle {α : Type} {result : Except Failure α} {answer : α → Answer}
    {output : α → Output} (hq : Query.parse env.table env.dataset.length false line = .ok q)
    (he : env.evaluate true q = settle true (.of result) answer output) :
    env.submit line =
      .ofResult line (result.mapError Failure.toDiagnostic) answer output := by
  unfold submit execute
  simp only [hq, he]
  cases result <;> rfl

theorem submit_of_measure {m : Measure}
    (hq : Query.parse env.table env.dataset.length false line = .ok q)
    (hm : Measure.ofQuery q = .ok m) :
    env.submit line = .ofResult line (env.reading m) .scalar (.ofScalar m.row) :=
  submit_of_settle hq (evaluate_of_action (Action.ofQuery_of_measure hm) true)

theorem submit_of_compareBoth {left right : Measure}
    (hq : Query.parse env.table env.dataset.length false line = .ok q)
    (haction : Action.ofQuery q = .ok (.compareBoth left right)) :
    env.submit line = .ofResult line
      (env.reading left >>= fun x => env.reading right >>= fun y =>
        pure (Sentence.ofBoth left.kind left.row x right.kind right.row y)) .text .text := by
  rw [submit_of_settle hq (evaluate_of_action haction true)]
  unfold compareBoth reading
  cases env.measure left with
  | error failure => rfl
  | ok x => cases env.measure right <;> rfl

section Outcome

variable {α : Type} {result : Except Diagnostic α} {answer : α → Answer} {output : α → Output}

theorem failsWith_iff (h : env.submit line = .ofResult line result answer output)
    {d : Diagnostic} : env.FailsWith line d ↔ result = .error d := by
  rw [FailsWith, h]
  cases result <;> simp [Submission.ofResult]

theorem yields_iff {result : Except Diagnostic Float} {output : Float → Output}
    (h : env.submit line = .ofResult line result .scalar output) {x : Float} :
    env.Yields line x ↔ result = .ok x := by
  rw [Yields, h]
  cases result <;> simp [Submission.ofResult]

end Outcome

/-- A sub-query of a line stands by itself: its text is read as the query for a measure, moved to
the start of the line, and submitting it gives a number or fails. -/
structure StandsAlone (env : Environment) (line : String) (s : Query) (m : Measure) : Prop where
  measures : Measure.ofQuery s = .ok m
  cuts : s.span.Cuts line
  accepted : ∃ r, Query.parse env.table env.dataset.length false (s.span.textIn line) = .ok r ∧
    r.shift s.span.start = s
  settled : (∃ x, env.Yields (s.span.textIn line) x) ∨
    ∃ d, env.FailsWith (s.span.textIn line) d

/-- What comes of the text of a sub-query, and what the sub-query contributes to its line. -/
theorem exists_reading_of_subQuery (htable : env.table = CommandTable.builtin)
    (hq : Query.parse env.table env.dataset.length false line = .ok q) {s : Query}
    (hs : s ∈ q.subQueries) {m : Measure} (hm : Measure.ofQuery s = .ok m) :
    ∃ own, env.submit (s.span.textIn line) =
        .ofResult (s.span.textIn line) (env.reading own) .scalar (.ofScalar own.row) ∧
      env.reading m = (env.reading own).mapError (Diagnostic.shift s.span.start) ∧
      env.StandsAlone line s m := by
  obtain ⟨hcuts, r, hr, hshift⟩ := Query.exists_parse_textIn (htable ▸ hq) hs
  rw [← htable] at hr
  obtain ⟨own, hown, hmoved⟩ := Measure.exists_of_shift (hshift.symm ▸ hm)
  have hsubmit := submit_of_measure hr hown
  refine ⟨own, hsubmit, hmoved ▸ reading_shift own _, hm, hcuts, ⟨r, hr, hshift⟩, ?_⟩
  cases hreading : env.reading own with
  | ok x => exact .inl ⟨x, (yields_iff hsubmit).mpr hreading⟩
  | error d => exact .inr ⟨d, (failsWith_iff hsubmit).mpr hreading⟩

/-- The action of a comparison of two sub-queries is there, and it is the comparison of the
measures that they ask for. -/
theorem exists_compareBoth_of_parse (htable : env.table = CommandTable.builtin)
    (hq : Query.parse env.table env.dataset.length false line = .ok q)
    (hcommand : q.command = "compare") (hvariant : q.variant = some "dataset") :
    ∃ first second left right, q.subQueries = [first, second] ∧
      Measure.ofQuery first = .ok left ∧ Measure.ofQuery second = .ok right ∧
      Action.ofQuery q = .ok (.compareBoth left right) := by
  rw [htable] at hq
  obtain ⟨⟨action, haction, _⟩, _⟩ := Action.exists_of_ofTokens hq
  have hboth : Action.ofQuery q = Action.bothOfQuery q := by
    unfold Action.ofQuery
    simp only [hcommand, hvariant]
  obtain ⟨first, second, left, right, hsubs, hleft, hright, rfl⟩ :=
    exists_of_bothOfQuery (hboth ▸ haction)
  exact ⟨first, second, left, right, hsubs, hleft, hright, haction⟩

/-! The parts of two lines -/

theorem yields_min : isolated.Yields "min `t` 0" 70 := by
  unfold Yields
  decide +kernel

theorem yields_max : isolated.Yields "max `t`" 75 := by
  unfold Yields
  decide +kernel

theorem failsWith_absent_row : isolated.FailsWith "max `u`"
    (.error .datasetFailure (DatasetError.unknownRow "u").message ⟨0, 7⟩) := by
  have htokens : tokenize "max `u`" = [⟨"max", 0⟩, ⟨"`u`", 4⟩] := by
    decide +kernel
  have hread : Query.parse isolated.table isolated.dataset.length false "max `u`" =
      .ok ⟨"max", none, [⟨"row", .row, .row "u", "`u`", ⟨4, 7⟩⟩], [], ⟨0, 7⟩⟩ :=
    Query.parse_of_heads htokens CommandTable.builtin.commands[4] ⟨rfl, by decide, rfl, rfl⟩
      .nil
  exact (failsWith_iff (submit_of_measure hread rfl)).mpr rfl

def lowAndAbsent : Query :=
  ⟨"compare", some "dataset", [⟨"location type", .enum, .enum "dataset", "dataset", ⟨8, 15⟩⟩],
    [⟨"min", none, [⟨"row", .row, .row "t", "`t`", ⟨20, 23⟩⟩,
        ⟨"start", .date, .date (.index 0), "0", ⟨24, 25⟩⟩], [], ⟨16, 25⟩⟩,
      ⟨"max", none, [⟨"row", .row, .row "u", "`u`", ⟨30, 33⟩⟩], [], ⟨26, 33⟩⟩], ⟨0, 33⟩⟩

theorem parse_lowAndAbsent :
    Query.parse isolated.table isolated.dataset.length false
      "compare dataset min `t` 0 max `u`" = .ok lowAndAbsent := by
  have htokens : tokenize "compare dataset min `t` 0 max `u`" =
      [⟨"compare", 0⟩, ⟨"dataset", 8⟩, ⟨"min", 16⟩, ⟨"`t`", 20⟩, ⟨"0", 24⟩, ⟨"max", 26⟩,
        ⟨"`u`", 30⟩] := by
    decide +kernel
  refine Query.parse_of_heads htokens CommandTable.builtin.commands[9]
    ⟨rfl, by decide, rfl, rfl⟩ (.cons ?_ (.cons ?_ .nil))
  · exact Query.ofTokens_cons_eq_ok_iff.mpr ⟨CommandTable.builtin.commands[3], _, [], [],
      ⟨rfl, by decide, rfl, rfl⟩, .nil, rfl⟩
  · exact Query.ofTokens_cons_eq_ok_iff.mpr ⟨CommandTable.builtin.commands[4], _, [], [],
      ⟨rfl, by decide, rfl, rfl⟩, .nil, rfl⟩

/-! The whole line -/

/-- With the built-in commands a comparison of two measures of the dataset says what the texts of
its sub-queries say as lines of their own. Each text is read and gives a number or fails. If both
give numbers, the line is answered with the sentence that compares these numbers. If the first
fails, or only the second does, the line fails with what was wrong, at the place that it has in
the line. -/
theorem submit_compare_dataset (env : Environment) (htable : env.table = CommandTable.builtin)
    {line : String} {q : Query}
    (hq : Query.parse env.table env.dataset.length false line = .ok q)
    (hcommand : q.command = "compare") (hvariant : q.variant = some "dataset") :
    ∃ first second left right, q.subQueries = [first, second] ∧
      env.StandsAlone line first left ∧ env.StandsAlone line second right ∧
      (∀ x y, env.Yields (first.span.textIn line) x → env.Yields (second.span.textIn line) y →
        env.Tells line (Sentence.ofBoth left.kind left.row x right.kind right.row y)) ∧
      (∀ d, env.FailsWith (first.span.textIn line) d →
        env.FailsWith line (d.shift first.span.start)) ∧
      ∀ x d, env.Yields (first.span.textIn line) x → env.FailsWith (second.span.textIn line) d →
        env.FailsWith line (d.shift second.span.start) := by
  obtain ⟨first, second, left, right, hsubs, hleft, hright, haction⟩ :=
    exists_compareBoth_of_parse htable hq hcommand hvariant
  obtain ⟨own₁, hsubmit₁, hreading₁, hfirst⟩ :=
    exists_reading_of_subQuery htable hq (by simp [hsubs]) hleft
  obtain ⟨own₂, hsubmit₂, hreading₂, hsecond⟩ :=
    exists_reading_of_subQuery htable hq (by simp [hsubs]) hright
  have hsubmit := submit_of_compareBoth hq haction
  refine ⟨first, second, left, right, hsubs, hfirst, hsecond, ?_, ?_, ?_⟩
  · intro x y hx hy
    rw [yields_iff hsubmit₁] at hx
    rw [yields_iff hsubmit₂] at hy
    rw [Tells, hsubmit, hreading₁, hreading₂, hx, hy]
    rfl
  · intro d hd
    rw [failsWith_iff hsubmit₁] at hd
    rw [failsWith_iff hsubmit, hreading₁, hd]
    rfl
  · intro x d hx hd
    rw [yields_iff hsubmit₁] at hx
    rw [failsWith_iff hsubmit₂] at hd
    rw [failsWith_iff hsubmit, hreading₁, hreading₂, hx, hd]
    rfl

/-- Both parts of the first line give a number. Only the second part of the other line fails, and
the line fails like it does, further on. -/
theorem submit_compare_dataset_isolated :
    (isolated.Yields "min `t` 0" 70 ∧ isolated.Yields "max `t`" 75 ∧
      isolated.Tells "compare dataset min `t` 0 max `t`"
        ("In the first given query the minimum of t in the dataset was 70 which was less than " ++
          "the second query, the maximum of t was 75")) ∧
      isolated.FailsWith "max `u`"
        (.error .datasetFailure (DatasetError.unknownRow "u").message ⟨0, 7⟩) ∧
      isolated.FailsWith "compare dataset min `t` 0 max `u`"
        (.error .datasetFailure (DatasetError.unknownRow "u").message ⟨26, 33⟩) := by
  refine ⟨⟨yields_min, yields_max, ?_⟩, failsWith_absent_row, ?_⟩
  · obtain ⟨first, second, left, right, hsubs, hfirst, hsecond, htells, -, -⟩ :=
      submit_compare_dataset isolated rfl parse_lowAndHigh rfl rfl
    obtain ⟨rfl, rfl⟩ : lowAndHigh.subQueries[0] = first ∧ lowAndHigh.subQueries[1] = second := by
      simpa [lowAndHigh] using hsubs
    obtain rfl := Except.ok.inj hfirst.measures
    obtain rfl := Except.ok.inj hsecond.measures
    have hmin : lowAndHigh.subQueries[0].span.textIn "compare dataset min `t` 0 max `t`" =
        "min `t` 0" := by
      decide +kernel
    have hmax : lowAndHigh.subQueries[1].span.textIn "compare dataset min `t` 0 max `t`" =
        "max `t`" := by
      decide +kernel
    have hsentence : Sentence.ofBoth .min "t" 70 .max "t" 75 =
        "In the first given query the minimum of t in the dataset was 70 which was less than " ++
          "the second query, the maximum of t was 75" := by
      decide +kernel
    rw [hmin, hmax] at htells
    rw [← hsentence]
    exact htells 70 75 yields_min yields_max
  · obtain ⟨first, second, _, _, hsubs, _, _, -, -, hfails⟩ :=
      submit_compare_dataset isolated rfl parse_lowAndAbsent rfl rfl
    obtain ⟨rfl, rfl⟩ :
        lowAndAbsent.subQueries[0] = first ∧ lowAndAbsent.subQueries[1] = second := by
      simpa [lowAndAbsent] using hsubs
    have hmin : lowAndAbsent.subQueries[0].span.textIn "compare dataset min `t` 0 max `u`" =
        "min `t` 0" := by
      decide +kernel
    have habsent : lowAndAbsent.subQueries[1].span.textIn "compare dataset min `t` 0 max `u`" =
        "max `u`" := by
      decide +kernel
    rw [hmin, habsent] at hfails
    exact hfails 70 _ yields_min failsWith_absent_row

end Environment

end Almanac
