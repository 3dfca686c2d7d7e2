import Almanac.Evaluation.Action
import Almanac.Proofs.Dataset.Selection
import Almanac.Proofs.Query.Reading
import Almanac.Proofs.Table.Builtin

/-!
What the queries of the built-in commands ask for. A query that was read lacks no part of its
action: every argument that is looked up by its name is there, with a value of the kind that is
asked for, and there are as many sub-queries as the command has places for. Its dates are places
among the days or have the ISO form.
-/

namespace Almanac

open CommandTable

structure Measure.Sound (days : Nat) (m : Measure) : Prop where
  first : ∀ token ∈ m.first, token.Bounded days
  last : ∀ token ∈ m.last, token.Bounded days
  single : m.kind = .value → m.last = none

def Action.Sound (days : Nat) : Action → Prop
  | .help => True
  | .upload => True
  | .clear => True
  | .table => True
  | .measure m => m.Sound days
  | .chart _ first last =>
    (∀ token ∈ first, token.Bounded days) ∧ ∀ token ∈ last, token.Bounded days
  | .compareWith _ m => m.Sound days
  | .compareBoth left right => left.Sound days ∧ right.Sound days

theorem Aggregate.eq_word_of_ofWord? {text : String} {kind : Aggregate}
    (h : ofWord? text = some kind) : text = kind.word := by
  unfold ofWord? at h
  split at h
  · exact (Option.some.inj h) ▸ rfl
  · exact (Option.some.inj h) ▸ rfl
  · exact (Option.some.inj h) ▸ rfl
  · exact (Option.some.inj h) ▸ rfl
  · cases h

theorem Argument.bounded_of_readDate {days : Nat} {text : String} {token : DateToken}
    (h : readDate days text = .ok token) : token.Bounded days := by
  rcases readDate_eq_ok_iff.mp h with ⟨_, place, _, hbounds, rfl⟩ | ⟨_, hiso, rfl⟩
  · exact hbounds
  · exact hiso

/-- The query is a call of the command, with its arguments bound to the parameters. -/
structure Query.Calls (days : Nat) (c : Command) (q : Query) : Prop where
  command : q.command = c.name
  variant : q.variant = c.discriminant
  bound : ∃ nested tail, c.required.length ≤ tail.length ∧
    Argument.bindAll days c.name nested c.positional tail = .ok q.args

namespace Query.Calls

variable {days : Nat} {c : Command} {q : Query} {rest : List Param} {p : Param}

/-- The argument of a required parameter can be looked up by its name. -/
theorem exists_arg? (h : q.Calls days c) (front : List Param)
    (hpositional : c.positional = front ++ p :: rest)
    (hrequired : front.length < c.required.length)
    (hfirst : ∀ earlier ∈ front, earlier.name ≠ p.name) :
    ∃ a, q.arg? p.name = some a ∧ Argument.readValue days a.raw p.kind = .ok a.value := by
  obtain ⟨nested, tail, henough, hbound⟩ := h.bound
  rw [hpositional] at hbound
  have hlong : front.length < tail.length := Nat.lt_of_lt_of_le hrequired henough
  exact Argument.exists_find?_of_bindAll hbound hlong hfirst

theorem exists_row? (h : q.Calls days c) (front : List Param)
    (hpositional : c.positional = front ++ p :: rest)
    (hrequired : front.length < c.required.length)
    (hfirst : ∀ earlier ∈ front, earlier.name ≠ p.name) (hkind : p.kind = .row) :
    ∃ name, q.row? p.name = some name := by
  obtain ⟨a, ha, hread⟩ := h.exists_arg? front hpositional hrequired hfirst
  rw [hkind] at hread
  obtain ⟨name, hname⟩ := Argument.exists_row_of_readValue hread
  exact ⟨name, by simp [row?, ha, hname]⟩

theorem exists_text? (h : q.Calls days c) (front : List Param)
    (hpositional : c.positional = front ++ p :: rest)
    (hrequired : front.length < c.required.length)
    (hfirst : ∀ earlier ∈ front, earlier.name ≠ p.name) (hkind : p.kind = .string) :
    ∃ content, q.text? p.name = some content := by
  obtain ⟨a, ha, hread⟩ := h.exists_arg? front hpositional hrequired hfirst
  rw [hkind] at hread
  obtain ⟨content, hcontent⟩ := Argument.exists_text_of_readValue hread
  exact ⟨content, by simp [text?, ha, hcontent]⟩

theorem exists_number? (h : q.Calls days c) (front : List Param)
    (hpositional : c.positional = front ++ p :: rest)
    (hrequired : front.length < c.required.length)
    (hfirst : ∀ earlier ∈ front, earlier.name ≠ p.name) (hkind : p.kind = .number) :
    ∃ x, q.number? p.name = some x := by
  obtain ⟨a, ha, hread⟩ := h.exists_arg? front hpositional hrequired hfirst
  rw [hkind] at hread
  obtain ⟨x, hx⟩ := Argument.exists_number_of_readValue hread
  exact ⟨x, by simp [number?, ha, hx]⟩

/-- Whatever date is looked up is one that may be asked for. -/
theorem bounded_date? (h : q.Calls days c) (name : String) :
    ∀ token ∈ q.date? name, token.Bounded days := by
  intro token htoken
  obtain ⟨nested, tail, _, hbound⟩ := h.bound
  unfold date? at htoken
  split at htoken
  · rename_i value hvalue
    obtain rfl : value = token := by simpa using htoken
    obtain ⟨a, ha, hdate⟩ := Option.map_eq_some_iff.mp hvalue
    have hread := Argument.readValue_of_mem_bindAll hbound (List.mem_of_find?_eq_some ha)
    rw [hdate] at hread
    exact Argument.bounded_of_readDate (Argument.readDate_of_readValue hread)
  · cases htoken

theorem exists_measure_of_row (h : q.Calls days c) {kind : Aggregate} {row : String}
    (hkind : Aggregate.ofWord? c.name = some kind) (hrow : q.row? "row" = some row) :
    ∃ m, Measure.ofQuery q = .ok m ∧ m.Sound days := by
  rw [← h.command] at hkind
  have hranged : Measure.Sound days ⟨kind, row, q.date? "start", q.date? "end", q.span⟩ ∨
      kind = .value := by
    by_cases hvalue : kind = .value
    · exact .inr hvalue
    · exact .inl ⟨h.bounded_date? "start", h.bounded_date? "end", fun hk => absurd hk hvalue⟩
  cases kind with
  | value =>
    refine ⟨⟨.value, row, q.date? "day", none, q.span⟩, ?_, h.bounded_date? "day", by simp, by simp⟩
    simp [Measure.ofQuery, hkind, need, hrow]
  | min => exact ⟨_, by simp [Measure.ofQuery, hkind, need, hrow], hranged.resolve_right nofun⟩
  | max => exact ⟨_, by simp [Measure.ofQuery, hkind, need, hrow], hranged.resolve_right nofun⟩
  | avg => exact ⟨_, by simp [Measure.ofQuery, hkind, need, hrow], hranged.resolve_right nofun⟩

/-- A row that is asked for first can be looked up. -/
theorem exists_leading_row (h : q.Calls days c) {others : List Param}
    (hparams : c.params = .required "row" .row :: others) :
    ∃ row, q.row? "row" = some row := by
  have hpositional : c.positional =
      [] ++ .required "row" .row :: others.filter fun p => p.kind ≠ .subQuery := by
    unfold Command.positional
    rw [hparams]
    rfl
  have hrequired : 0 < c.required.length := by
    unfold Command.required
    rw [hpositional]
    exact Nat.succ_pos _
  exact h.exists_row? [] hpositional hrequired (by simp) rfl

/-- The commands that may stand inside another query ask for a measure. -/
theorem exists_measure (h : q.Calls days c) (hmem : c ∈ builtin.commands)
    (hnested : c.canSubQuery = true) : ∃ m, Measure.ofQuery q = .ok m ∧ m.Sound days := by
  have hcall := builtin_nested c hmem hnested
  have hwords : ∀ word ∈ ["min", "max", "avg", "value"],
      (Aggregate.ofWord? word).isSome = true := by
    decide
  have hword : c.name ∈ ["min", "max", "avg", "value"] := by
    rcases hcall with ⟨hname, _⟩ | ⟨hname, _⟩
    · exact List.mem_append_left ["value"] hname
    · simp [hname]
  obtain ⟨kind, hkind⟩ := Option.isSome_iff_exists.mp (hwords c.name hword)
  obtain ⟨others, hparams⟩ : ∃ others, c.params = .required "row" .row :: others := by
    rcases hcall with ⟨_, hparams⟩ | ⟨_, hparams⟩
    · exact ⟨_, hparams⟩
    · exact ⟨_, hparams⟩
  obtain ⟨row, hrow⟩ := h.exists_leading_row hparams
  exact h.exists_measure_of_row hkind hrow

end Query.Calls

namespace Query

variable {days lineLength : Nat} {nested : Bool} {q : Query}

theorem exists_calls {tokens : List Token}
    (h : ofTokens builtin days lineLength nested tokens = .ok q) :
    ∃ c ∈ builtin.commands, c.visibleIn nested = true ∧ q.Calls days c ∧
      q.subQueries.length = min c.subQueryParams.length 2 ∧
      ∀ s ∈ q.subQueries, ∃ run, ofTokens builtin days lineLength true run = .ok s := by
  cases tokens with
  | nil => exact absurd h ofTokens_nil_ne_ok
  | cons head tail =>
    obtain ⟨c, args, runs, subQueries, hheads, hsubs, rfl⟩ := ofTokens_cons_eq_ok_iff.mp h
    obtain ⟨hmem, hanswers⟩ := resolve_builtin_iff.mp hheads.resolved
    refine ⟨c, hmem, (Command.answers_iff.mp hanswers).2.1,
      ⟨rfl, rfl, nested, tail, hheads.enough, hheads.bound⟩, ?_, ?_⟩
    · have hruns := length_runs_divide (congrArg Division.fault hheads.divided)
      rw [hheads.divided] at hruns
      rw [← hruns, hsubs.length_eq]
    · intro s hs
      obtain ⟨run, _, hread⟩ := exists_mem_of_forall₂ hsubs hs
      exact ⟨run, hread⟩

/-- Every sub-query asks for a measure. -/
theorem exists_measure_of_nested {tokens : List Token}
    (h : ofTokens builtin days lineLength true tokens = .ok q) :
    ∃ m, Measure.ofQuery q = .ok m ∧ m.Sound days := by
  obtain ⟨c, hmem, hvisible, hcalls, _⟩ := exists_calls h
  exact hcalls.exists_measure hmem (by simpa [Command.visibleIn] using hvisible)

end Query

namespace Action

open Query

variable {days lineLength : Nat} {nested : Bool} {q sub : Query} {m : Measure}

/-- A query for a measure is nothing but that. -/
theorem ofQuery_of_measure (h : Measure.ofQuery q = .ok m) : ofQuery q = .ok (.measure m) := by
  cases hkind : Aggregate.ofWord? q.command with
  | none => simp [Measure.ofQuery, hkind, lacks] at h
  | some kind =>
    have hcommand := Aggregate.eq_word_of_ofWord? hkind
    unfold ofQuery
    rw [hcommand]
    cases kind <;> simp [Aggregate.word, Aggregate.ofWord?, h, Except.map]

theorem withOfQuery_eq {variant : String} {location : Location}
    (hlocation : Location.ofQuery variant q = .ok location) (hsubs : q.subQueries = [sub])
    (hm : Measure.ofQuery sub = .ok m) :
    withOfQuery variant q = .ok (.compareWith location m) := by
  simp [withOfQuery, hlocation, hsubs, hm, bind, Except.bind, Except.map]

theorem exists_compareBoth (hcommand : q.command = "compare")
    (hvariant : q.variant = some "dataset") (hsubs : q.subQueries.length = 2)
    (hread : ∀ s ∈ q.subQueries, ∃ m, Measure.ofQuery s = .ok m ∧ m.Sound days) :
    ∃ action, ofQuery q = .ok action ∧ action.Sound days := by
  obtain ⟨left, right, hboth⟩ := List.length_eq_two.mp hsubs
  obtain ⟨m₁, hm₁, hsound₁⟩ := hread left (by simp [hboth])
  obtain ⟨m₂, hm₂, hsound₂⟩ := hread right (by simp [hboth])
  refine ⟨.compareBoth m₁ m₂, ?_, hsound₁, hsound₂⟩
  unfold ofQuery
  rw [hcommand, hvariant]
  simp only [bothOfQuery, hboth, hm₁, hm₂]
  rfl

/-- The words after which arguments say where archived weather is asked for. -/
inductive Locates : String → List Param → Prop
  | coord : Locates "coord" [.required "latitude" .number, .required "longitude" .number]
  | zip : Locates "zip" [.required "zip code" .int]
  | city : Locates "city" [.required "city name" .string]

/-- The part of a comparison that says where the weather is asked for can be read. -/
theorem exists_location {c : Command} {word : String} {own : List Param}
    (h : q.Calls days c) (hpositional : c.positional = .leading "location type" word :: own)
    (hrequired : c.required.length = own.length + 1) (hown : Locates word own) :
    ∃ location, Location.ofQuery word q = .ok location := by
  cases hown with
  | coord =>
    obtain ⟨latitude, hlatitude⟩ : ∃ x, q.number? "latitude" = some x :=
      h.exists_number? [_] hpositional (by simp [hrequired]) (by decide) rfl
    obtain ⟨longitude, hlongitude⟩ : ∃ x, q.number? "longitude" = some x :=
      h.exists_number? [_, _] hpositional (by simp [hrequired]) (by decide) rfl
    refine ⟨.point ⟨latitude, longitude⟩, ?_⟩
    simp [Location.ofQuery, need, hlatitude, hlongitude, bind, Except.bind, pure, Except.pure]
  | zip =>
    obtain ⟨a, ha, _⟩ : ∃ a, q.arg? "zip code" = some a ∧ _ :=
      h.exists_arg? [_] hpositional (by simp [hrequired]) (by decide)
    refine ⟨.zip a.raw, ?_⟩
    simp [Location.ofQuery, need, ha, Except.map]
  | city =>
    obtain ⟨name, hname⟩ : ∃ content, q.text? "city name" = some content :=
      h.exists_text? [_] hpositional (by simp [hrequired]) (by decide) rfl
    refine ⟨.city name, ?_⟩
    simp [Location.ofQuery, need, hname, Except.map]

/-- A comparison with the archive asks for a location and a measure. -/
theorem exists_compareWith {c : Command} {word : String} {own : List Param} {slot : Param}
    (h : q.Calls days c) (hname : c.name = "compare")
    (hparams : c.params = comparison word own [slot])
    (hparts : ∀ p ∈ own, p.kind ≠ .subQuery ∧ p.optional = false) (hslot : slot.kind = .subQuery)
    (hown : Locates word own)
    (hlength : q.subQueries.length = min c.subQueryParams.length 2)
    (hread : ∀ s ∈ q.subQueries, ∃ m, Measure.ofQuery s = .ok m ∧ m.Sound days) :
    ∃ action, ofQuery q = .ok action ∧ action.Sound days := by
  obtain ⟨hpositional, hrequired, hslots⟩ := comparison_params hparams hparts (by simpa using hslot)
  obtain ⟨location, hlocation⟩ := exists_location h hpositional hrequired hown
  rw [hslots] at hlength
  obtain ⟨sub, hsub⟩ := List.length_eq_one_iff.mp hlength
  obtain ⟨m, hm, hsound⟩ := hread sub (by simp [hsub])
  have hcommand : q.command = "compare" := h.command.trans hname
  have hvariant : q.variant = some word := h.variant.trans (discriminant_comparison hparams)
  have hword : word ≠ "dataset" := by
    cases hown <;> decide
  refine ⟨.compareWith location m, ?_, hsound⟩
  unfold ofQuery
  rw [hcommand, hvariant]
  simp only [withOfQuery_eq hlocation hsub hm]

/-- The commands that stand alone ask for an action, given what their sub-queries ask for. -/
theorem exists_of_outer {c : Command} (hmem : c ∈ builtin.commands)
    (houter : c.canSubQuery = false) (h : q.Calls days c)
    (hlength : q.subQueries.length = min c.subQueryParams.length 2)
    (hread : ∀ s ∈ q.subQueries, ∃ m, Measure.ofQuery s = .ok m ∧ m.Sound days) :
    ∃ action, ofQuery q = .ok action ∧ action.Sound days := by
  rcases builtin_outer c hmem houter with ⟨hword, hparams⟩ | ⟨hname, hparams⟩ |
    ⟨hname, hparams⟩ | ⟨hname, hparams⟩ | ⟨hname, hparams⟩ | ⟨hname, hparams⟩
  · rw [← h.command] at hword
    simp only [List.mem_cons, List.not_mem_nil, or_false] at hword
    rcases hword with hword | hword | hword | hword
    · exact ⟨.help, by simp [ofQuery, hword], trivial⟩
    · exact ⟨.upload, by simp [ofQuery, hword], trivial⟩
    · exact ⟨.clear, by simp [ofQuery, hword], trivial⟩
    · exact ⟨.table, by simp [ofQuery, hword], trivial⟩
  · obtain ⟨row, hrow⟩ := h.exists_leading_row hparams
    refine ⟨.chart row (q.date? "start") (q.date? "end"), ?_, h.bounded_date? "start",
      h.bounded_date? "end"⟩
    unfold ofQuery
    rw [h.command, hname]
    simp [need, hrow, Except.map]
  · exact exists_compareWith h hname hparams (by decide) rfl .coord hlength hread
  · exact exists_compareWith h hname hparams (by decide) rfl .zip hlength hread
  · exact exists_compareWith h hname hparams (by decide) rfl .city hlength hread
  · obtain ⟨_, _, hslots⟩ := comparison_params hparams (by simp) (by decide)
    refine exists_compareBoth (h.command.trans hname)
      (h.variant.trans (discriminant_comparison hparams)) ?_ hread
    simpa [hslots] using hlength

/-- Every query of the built-in commands that was read asks for an action, and so does each of
its sub-queries, which asks for a measure. -/
theorem exists_of_ofTokens {tokens : List Token}
    (h : ofTokens builtin days lineLength nested tokens = .ok q) :
    (∃ action, ofQuery q = .ok action ∧ action.Sound days) ∧
      ∀ s ∈ q.subQueries, ∃ m, Measure.ofQuery s = .ok m ∧ m.Sound days := by
  obtain ⟨c, hmem, _, hcalls, hlength, hruns⟩ := exists_calls h
  have hread : ∀ s ∈ q.subQueries, ∃ m, Measure.ofQuery s = .ok m ∧ m.Sound days := by
    intro s hs
    obtain ⟨run, hrun⟩ := hruns s hs
    exact exists_measure_of_nested hrun
  refine ⟨?_, hread⟩
  cases hnested : c.canSubQuery with
  | true =>
    obtain ⟨m, hm, hsound⟩ := hcalls.exists_measure hmem hnested
    exact ⟨.measure m, ofQuery_of_measure hm, hsound⟩
  | false => exact exists_of_outer hmem hnested hcalls hlength hread

end Action

end Almanac
