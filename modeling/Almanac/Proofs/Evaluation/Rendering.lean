import Almanac.Proofs.Evaluation.Stepwise

/-!
What is shown for a line. The line is echoed, and one output follows it: that of the query on the
line, or the error. A comparison evaluates its sub-queries by themselves, without asking them to
show anything. They are measures, which then show nothing, so that the output of a comparison is
its sentence alone; and there are as many of them as the comparison asks for.
-/

namespace Almanac

/-- The output that tells what came of an action. -/
inductive Action.Displays (env : Environment) : Action → Answer → Output → Prop
  | help : Displays env .help .none (.helpFor env.table)
  | upload : Displays env .upload .none .upload
  | clear : Displays env .clear .none .clear
  | table :
    Displays env .table (.grid (Grid.ofDataset env.dataset)) (.table (Grid.ofDataset env.dataset))
  | weatherCode {m : Measure} {x : Float} (hrow : m.row = Weather.codeRow) :
    Displays env (.measure m) (.scalar x)
      (.weatherCode (Weather.codeOf x) (Weather.codeLabel (Weather.codeOf x)))
  | amount {m : Measure} {x : Float} (hrow : m.row ≠ Weather.codeRow) :
    Displays env (.measure m) (.scalar x) (.text (Sentence.amount m.row x))
  | chart {row : String} {first last : Option DateToken} {bars : List Bar} :
    Displays env (.chart row first last) (.bars bars)
      (.histogram ("Histogram of `" ++ row ++ "`") row bars)
  | compareWith {location : Location} {m : Measure} {sentence : String} :
    Displays env (.compareWith location m) (.text sentence) (.text sentence)
  | compareBoth {left right : Measure} {sentence : String} :
    Displays env (.compareBoth left right) (.text sentence) (.text sentence)

theorem Action.Displays.isError_eq {env : Environment} {action : Action} {answer : Answer}
    {output : Output} (h : action.Displays env answer output) : output.isError = false := by
  cases h <;> rfl

theorem Action.displays_ofScalar (env : Environment) (m : Measure) (x : Float) :
    Action.Displays env (.measure m) (.scalar x) (.ofScalar m.row x) := by
  unfold Output.ofScalar
  split
  · exact .weatherCode ‹_›
  · exact .amount ‹_›

namespace Environment

variable {env : Environment} {span : Span}

/-! Each evaluation shows one output or fails -/

theorem settle_cases {α : Type} (print : Bool) (c : Consultation α) (answer : α → Answer)
    (output : α → Output) :
    (∃ value, c.result = .ok value ∧ settle print c answer output =
        ⟨.ok (answer value), c.calls, if print then [output value] else []⟩) ∨
      ∃ failure, c.result = .error failure ∧
        settle print c answer output = ⟨.error failure, c.calls, []⟩ := by
  unfold settle
  cases c.result with
  | ok value => exact .inl ⟨value, rfl, rfl⟩
  | error failure => exact .inr ⟨failure, rfl, rfl⟩

/-- An evaluation that was asked to show its result: it shows the one output that tells what came
of the action, or it fails and shows none. -/
def ShowsOne (env : Environment) (action : Action) (e : Evaluation) : Prop :=
  (∃ answer output, e.result = .ok answer ∧ e.shown = [output] ∧
      action.Displays env answer output) ∨
    ∃ failure, e.result = .error failure ∧ e.shown = []

theorem showsOne_settle {α : Type} {action : Action} {c : Consultation α} {answer : α → Answer}
    {output : α → Output}
    (h : ∀ value, c.result = .ok value → action.Displays env (answer value) (output value)) :
    env.ShowsOne action (settle true c answer output) := by
  rcases settle_cases true c answer output with ⟨value, hvalue, hsettle⟩ | ⟨e, _, hsettle⟩
  · rw [hsettle]
    exact .inl ⟨answer value, output value, rfl, rfl, h value hvalue⟩
  · rw [hsettle]
    exact .inr ⟨e, rfl, rfl⟩

theorem showsOne_announce {action : Action} {output : Output}
    (h : action.Displays env .none output) : env.ShowsOne action (announce output) :=
  .inl ⟨.none, output, rfl, rfl, h⟩

theorem showsOne_perform (action : Action) :
    env.ShowsOne action (env.perform true span action) := by
  cases action with
  | help => exact showsOne_announce .help
  | upload => exact showsOne_announce .upload
  | clear => exact showsOne_announce .clear
  | table =>
    refine showsOne_settle fun grid hgrid => ?_
    obtain rfl : Grid.ofDataset env.dataset = grid := Except.ok.inj hgrid
    exact .table
  | measure m => exact showsOne_settle fun x _ => Action.displays_ofScalar env m x
  | chart row first last => exact showsOne_settle fun bars _ => .chart
  | compareWith location m => exact showsOne_settle fun sentence _ => .compareWith
  | compareBoth left right => exact showsOne_settle fun sentence _ => .compareBoth

/-- A query that is evaluated to be shown has an action with one output, or it fails in silence. -/
theorem evaluate_cases (q : Query) :
    (∃ action answer output, Action.ofQuery q = .ok action ∧
        (env.evaluate true q).result = .ok answer ∧ (env.evaluate true q).shown = [output] ∧
        action.Displays env answer output) ∨
      ∃ failure, (env.evaluate true q).result = .error failure ∧
        (env.evaluate true q).shown = [] := by
  cases haction : Action.ofQuery q with
  | error lack =>
    refine .inr ⟨.unresolved lack, ?_⟩
    simp [evaluate, haction]
  | ok action =>
    rw [evaluate_of_action haction]
    rcases showsOne_perform action with ⟨answer, output, hanswer, hshown, hdisplays⟩ | hfailed
    · exact .inl ⟨action, answer, output, rfl, hanswer, hshown, hdisplays⟩
    · exact .inr hfailed

theorem submit_cases (line : String) :
    (∃ q, Query.parse env.table env.dataset.length false line = .ok q ∧
        ∃ action answer output, Action.ofQuery q = .ok action ∧
          action.Displays env answer output ∧ (env.submit line).answer = some answer ∧
          (env.submit line).shown = [.echo line, output]) ∨
      ∃ diagnostic, (env.submit line).answer = none ∧
        (env.submit line).shown = [.echo line, .error line diagnostic] := by
  unfold submit execute
  cases hq : Query.parse env.table env.dataset.length false line with
  | error fault => exact .inr ⟨fault.toDiagnostic, rfl, rfl⟩
  | ok q =>
    rcases env.evaluate_cases q with
      ⟨action, answer, output, haction, hresult, hshown, hdisplays⟩ | ⟨failure, hresult, hshown⟩
    · refine .inl ⟨q, rfl, action, answer, output, haction, hdisplays, ?_, ?_⟩
      · simp only [hresult]
      · simp only [hresult, hshown]
    · refine .inr ⟨failure.toDiagnostic, ?_, ?_⟩
      · simp only [hresult]
      · simp only [hresult, hshown, List.nil_append]

/-- A line is echoed and then has one output, which is the error exactly when there is no answer,
and else tells what came of the outermost query. Any query that is evaluated to be shown has one
output if it has an answer and none if it fails. Its evaluation goes through its sub-queries, of
which none is missing, and they show nothing. -/
theorem submit_shows_one (env : Environment) :
    (∀ line, ∃ output, (env.submit line).shown = [.echo line, output] ∧
        (output.isError = true ↔ (env.submit line).answer = none) ∧
        ∀ answer, (env.submit line).answer = some answer → ∃ q action,
          Query.parse env.table env.dataset.length false line = .ok q ∧
            Action.ofQuery q = .ok action ∧ action.Displays env answer output) ∧
      (∀ q, (∃ answer output, (env.evaluate true q).result = .ok answer ∧
            (env.evaluate true q).shown = [output] ∧ output.isError = false) ∨
          ∃ failure, (env.evaluate true q).result = .error failure ∧
            (env.evaluate true q).shown = []) ∧
      (∀ q print, env.evaluateBy? (fun s => (env.evaluate false s).course) print q =
          some (env.evaluate print q).course) ∧
      ∀ q action, Action.ofQuery q = .ok action → action.comparands ≠ [] →
        q.subQueries.length = action.comparands.length ∧
          ∀ s ∈ q.subQueries, (env.evaluate false s).shown = [] := by
  refine ⟨fun line => ?_, fun q => ?_, fun q print => evaluateBy?_evaluate env print q, ?_⟩
  · rcases env.submit_cases line with
      ⟨q, hq, action, answer, output, haction, hdisplays, hanswer, hshown⟩ |
        ⟨diagnostic, hanswer, hshown⟩
    · refine ⟨output, hshown, ?_, ?_⟩
      · simp [hdisplays.isError_eq, hanswer]
      · intro found hfound
        obtain rfl : answer = found := by simpa [hanswer] using hfound
        exact ⟨q, action, hq, haction, hdisplays⟩
    · refine ⟨.error line diagnostic, hshown, ?_, ?_⟩
      · simp [Output.isError, hanswer]
      · intro found hfound
        simp [hanswer] at hfound
  · rcases env.evaluate_cases q with
      ⟨action, answer, output, _, hresult, hshown, hdisplays⟩ | hfailed
    · exact .inl ⟨answer, output, hresult, hshown, hdisplays.isError_eq⟩
    · exact .inr hfailed
  · intro q action haction hcompares
    have hsubs := forall₂_comparands haction hcompares
    refine ⟨hsubs.length_eq, fun s hs => ?_⟩
    obtain ⟨m, hm⟩ := exists_forall₂_iff.mp ⟨_, hsubs⟩ s hs
    exact (silent_of_measure hm).2

def lowAndHigh : Query :=
  ⟨"compare", some "dataset", [⟨"location type", .enum, .enum "dataset", "dataset", ⟨8, 15⟩⟩],
    [⟨"min", none, [⟨"row", .row, .row "t", "`t`", ⟨20, 23⟩⟩,
        ⟨"start", .date, .date (.index 0), "0", ⟨24, 25⟩⟩], [], ⟨16, 25⟩⟩,
      ⟨"max", none, [⟨"row", .row, .row "t", "`t`", ⟨30, 33⟩⟩], [], ⟨26, 33⟩⟩], ⟨0, 33⟩⟩

theorem parse_lowAndHigh :
    Query.parse isolated.table isolated.dataset.length false
      "compare dataset min `t` 0 max `t`" = .ok lowAndHigh := by
  have htokens : tokenize "compare dataset min `t` 0 max `t`" =
      [⟨"compare", 0⟩, ⟨"dataset", 8⟩, ⟨"min", 16⟩, ⟨"`t`", 20⟩, ⟨"0", 24⟩, ⟨"max", 26⟩,
        ⟨"`t`", 30⟩] := by
    decide +kernel
  refine Query.parse_of_heads htokens CommandTable.builtin.commands[9]
    ⟨rfl, by decide, rfl, rfl⟩ (.cons ?_ (.cons ?_ .nil))
  · exact Query.ofTokens_cons_eq_ok_iff.mpr ⟨CommandTable.builtin.commands[3], _, [], [],
      ⟨rfl, by decide, rfl, rfl⟩, .nil, rfl⟩
  · exact Query.ofTokens_cons_eq_ok_iff.mpr ⟨CommandTable.builtin.commands[4], _, [], [],
      ⟨rfl, by decide, rfl, rfl⟩, .nil, rfl⟩

theorem submit_dataset_line : ∃ q sentence,
    Query.parse isolated.table isolated.dataset.length false "compare dataset min `t` 0 max `t`" =
        .ok q ∧ q.subQueries.length = 2 ∧
      (∀ s ∈ q.subQueries, (isolated.evaluate false s).shown = []) ∧
      (isolated.submit "compare dataset min `t` 0 max `t`").answer = some (.text sentence) ∧
      (isolated.submit "compare dataset min `t` 0 max `t`").shown =
        [.echo "compare dataset min `t` 0 max `t`", .text sentence] := by
  obtain ⟨sentence, hanswer⟩ : ∃ sentence,
      (isolated.submit "compare dataset min `t` 0 max `t`").answer = some (.text sentence) := by
    unfold submit execute
    rw [parse_lowAndHigh]
    exact ⟨_, rfl⟩
  obtain ⟨action, haction, hcompares⟩ :
      ∃ action, Action.ofQuery lowAndHigh = .ok action ∧ action.comparands ≠ [] :=
    ⟨_, rfl, List.cons_ne_nil _ _⟩
  obtain ⟨hlines, -, -, hcomparisons⟩ := submit_shows_one isolated
  obtain ⟨output, hshown, -, htells⟩ := hlines "compare dataset min `t` 0 max `t`"
  obtain ⟨_, _, _, _, hdisplays⟩ := htells _ hanswer
  obtain rfl : .text sentence = output := by
    cases hdisplays <;> rfl
  exact ⟨lowAndHigh, sentence, parse_lowAndHigh, rfl,
    (hcomparisons lowAndHigh action haction hcompares).2, hanswer, hshown⟩

end Environment

end Almanac
