import Almanac.Proofs.Table.Resolution
import Almanac.Table.Builtin

/-!
The built-in commands. At most one of them answers to a name and the token that follows, and each
of them has parameters of one of a few shapes: none, a row with dates, or the word of a comparison
with arguments and sub-queries.
-/

namespace Almanac.CommandTable

def commandWords : List String :=
  ["help", "input", "clear", "min", "max", "avg", "value", "table", "compare", "histogram"]

theorem isCommandName_builtin_iff {word : String} :
    builtin.isCommandName word = true ↔ word ∈ commandWords := by
  simp only [isCommandName, List.any_eq_true, decide_eq_true_eq]
  constructor
  · intro h
    obtain ⟨c, hc, rfl⟩ := h
    have hnames : ∀ c ∈ builtin.commands, c.name ∈ commandWords := by decide
    exact hnames c hc
  · have hnamed : ∀ word ∈ commandWords, ∃ c ∈ builtin.commands, c.name = word := by
      decide
    exact hnamed word

theorem builtin_sound : builtin.check = .ok () := by decide

theorem check_of_mem {c : Command} (hmem : c ∈ builtin.commands) : c.check = .ok () :=
  ((check_eq_ok_iff builtin).mp builtin_sound).1 c hmem

/-- Only `compare` has overloads, and each of them has a discriminant of its own. -/
theorem builtin_distinct : ∀ c ∈ builtin.commands, ∀ d ∈ builtin.commands, c.name = d.name →
    c = d ∨ c.discriminant ≠ none ∧ d.discriminant ≠ none ∧ c.discriminant ≠ d.discriminant := by
  decide

/-- Whatever built-in command answers is selected. -/
theorem resolve_builtin_iff {c : Command} {name : String} {next : Option String}
    {nested : Bool} :
    builtin.resolve name next nested = some c ↔
      c ∈ builtin.commands ∧ c.answers name next nested = true := by
  rw [resolve_eq_find? ((check_eq_ok_iff builtin).mp builtin_sound).2]
  constructor
  · intro h
    have hanswers := List.find?_some (p := fun c : Command => c.answers name next nested) h
    exact ⟨List.mem_of_find?_eq_some h, hanswers⟩
  · intro hcommand
    obtain ⟨hmem, hanswers⟩ := hcommand
    cases hfound : builtin.commands.find? fun c => c.answers name next nested with
    | none => exact absurd hanswers (List.find?_eq_none.mp hfound c hmem)
    | some d =>
      have hd := List.find?_some (p := fun c : Command => c.answers name next nested) hfound
      rw [Command.answers_iff] at hanswers hd
      rcases builtin_distinct c hmem d (List.mem_of_find?_eq_some hfound)
        (hanswers.1.trans hd.1.symm) with rfl | ⟨hc, hd', hne⟩
      · rfl
      · exact absurd ((hanswers.2.2.resolve_left hc).trans (hd.2.2.resolve_left hd').symm) hne

/-- A command without discriminant is selected by its name alone. -/
theorem resolve_of_bare {c : Command} (hmem : c ∈ builtin.commands) (hbare : c.discriminant = none)
    {nested : Bool} (hvisible : c.visibleIn nested = true) (next : Option String) :
    builtin.resolve c.name next nested = some c :=
  resolve_builtin_iff.mpr ⟨hmem, Command.answers_iff.mpr ⟨rfl, hvisible, .inl hbare⟩⟩

/-- A command with a discriminant is selected by that word behind its name. -/
theorem resolve_of_discriminant {c : Command} (hmem : c ∈ builtin.commands) {word : String}
    (hword : c.discriminant = some word) : builtin.resolve c.name (some word) false = some c :=
  resolve_builtin_iff.mpr ⟨hmem, Command.answers_iff.mpr ⟨rfl, c.visibleIn_false, .inr hword⟩⟩

/-! The shapes of their parameters -/

def valueParams : List Param := [.required "row" .row, .required "day" .date]

def comparison (word : String) (own slots : List Param) : List Param :=
  .leading "location type" word :: (own ++ slots)

def coordParams : List Param :=
  comparison "coord" [.required "latitude" .number, .required "longitude" .number]
    [.required "subquery" .subQuery]

def zipParams : List Param :=
  comparison "zip" [.required "zip code" .int] [.required "subquery" .subQuery]

def cityParams : List Param :=
  comparison "city" [.required "city name" .string] [.required "subquery" .subQuery]

def datasetParams : List Param :=
  comparison "dataset" [] [.required "1st query" .subQuery, .required "2nd query" .subQuery]

/-- The commands that may stand inside another query. -/
theorem builtin_nested : ∀ c ∈ builtin.commands, c.canSubQuery = true →
    c.name ∈ ["min", "max", "avg"] ∧ c.params = rowAndDates ∨
      c.name = "value" ∧ c.params = valueParams := by
  decide

theorem builtin_outer : ∀ c ∈ builtin.commands, c.canSubQuery = false →
    c.name ∈ ["help", "input", "clear", "table"] ∧ c.params = [] ∨
      c.name = "histogram" ∧ c.params = rowAndDates ∨
      c.name = "compare" ∧ c.params = coordParams ∨
      c.name = "compare" ∧ c.params = zipParams ∨
      c.name = "compare" ∧ c.params = cityParams ∨
      c.name = "compare" ∧ c.params = datasetParams := by
  decide

theorem builtin_nested_bare : ∀ c ∈ builtin.commands, c.canSubQuery = true →
    c.discriminant = none := by
  decide

theorem builtin_kinds : ∀ c ∈ builtin.commands, ∀ p ∈ c.params, p.kind ≠ .unsupported := by
  decide

/-- There are no sub-queries inside a sub-query. -/
theorem builtin_nested_flat : ∀ c ∈ builtin.commands, c.canSubQuery = true →
    c.subQueryParams = [] := by
  decide

/-- A command without discriminant is the only one of its name. -/
theorem visibleOverloads_of_bare : ∀ c ∈ builtin.commands, c.discriminant = none → ∀ nested,
    c.visibleIn nested = true → builtin.visibleOverloads c.name nested = [c] := by
  decide

/-- A command with a discriminant stands alone and is found among its overloads by it. -/
theorem overload_of_discriminant : ∀ c ∈ builtin.commands, c.discriminant ≠ none →
    c.canSubQuery = false ∧ 2 ≤ (builtin.visibleOverloads c.name false).length ∧
      (builtin.visibleOverloads c.name false).find? (fun d => d.discriminant = c.discriminant) =
        some c := by
  decide

/-- The overloads differ in the word of their first parameter only. -/
theorem leading_of_discriminant : ∀ c ∈ builtin.commands, c.discriminant ≠ none →
    ((builtin.visibleOverloads c.name false).head?.bind fun d => d.params.head?) =
        some (.leading "location type" "coord") ∧
      c.params[0]? = c.discriminant.map (.leading "location type") := by
  decide

theorem builtin_bare : ∀ c ∈ builtin.commands, c.discriminant = none → c.subQueryParams = [] := by
  decide

/-- The one command with two sub-queries. -/
theorem builtin_two_slots : ∀ c ∈ builtin.commands, c.subQuerySlots = 2 →
    c.name = "compare" ∧ c.params = datasetParams := by
  decide

theorem exists_dataset : ∃ c ∈ builtin.commands, c.name = "compare" ∧
    c.params = datasetParams := by
  decide

theorem comparison_params {c : Command} {word : String} {own slots : List Param}
    (h : c.params = comparison word own slots)
    (hown : ∀ p ∈ own, p.kind ≠ .subQuery ∧ p.optional = false)
    (hslots : ∀ p ∈ slots, p.kind = .subQuery) :
    c.positional = .leading "location type" word :: own ∧
      c.required.length = own.length + 1 ∧ c.subQueryParams = slots := by
  have hpositional : c.positional = .leading "location type" word :: own := by
    have hkeep : own.filter (fun p => p.kind ≠ .subQuery) = own := by
      simpa [List.filter_eq_self] using fun p hp => (hown p hp).1
    have hdrop : slots.filter (fun p => p.kind ≠ .subQuery) = [] := by
      simpa [List.filter_eq_nil_iff] using hslots
    rw [Command.positional, h, comparison, List.filter_cons_of_pos (by rfl),
      List.filter_append, hkeep, hdrop, List.append_nil]
  refine ⟨hpositional, ?_, ?_⟩
  · have hkeep : own.filter (fun p => !p.optional) = own := by
      simpa [List.filter_eq_self] using fun p hp => (hown p hp).2
    rw [Command.required, hpositional, List.filter_cons_of_pos (by rfl), hkeep, List.length_cons]
  · have hdrop : own.filter (fun p => p.kind = .subQuery) = [] := by
      simpa [List.filter_eq_nil_iff] using fun p hp => (hown p hp).1
    have hkeep : slots.filter (fun p => p.kind = .subQuery) = slots := by
      simpa [List.filter_eq_self] using hslots
    rw [Command.subQueryParams, h, comparison, List.filter_cons_of_neg (by simp [Param.leading]),
      List.filter_append, hkeep, hdrop, List.nil_append]

theorem discriminant_comparison {c : Command} {word : String} {own slots : List Param}
    (h : c.params = comparison word own slots) : c.discriminant = some word := by
  rw [Command.discriminant, h]
  rfl

/-- A command with a discriminant compares with the archive or compares two sub-queries. -/
theorem builtin_comparison {c : Command} (hmem : c ∈ builtin.commands) {word : String}
    (hword : c.discriminant = some word) :
    c.name = "compare" ∧ c.canSubQuery = false ∧
      ((∃ own slot, c.params = comparison word own [slot] ∧
          (∀ p ∈ own, p.kind ≠ .subQuery ∧ p.optional = false) ∧
          (∀ p ∈ own, p.kind ≠ .row ∧ p.kind ≠ .date) ∧ slot.kind = .subQuery) ∨
        c.params = datasetParams ∧ word = "dataset") := by
  cases hnested : c.canSubQuery with
  | true =>
    rw [builtin_nested_bare c hmem hnested] at hword
    cases hword
  | false =>
    rcases builtin_outer c hmem hnested with ⟨-, hparams⟩ | ⟨-, hparams⟩ | ⟨hname, hparams⟩ |
      ⟨hname, hparams⟩ | ⟨hname, hparams⟩ | ⟨hname, hparams⟩
    · simp [Command.discriminant, hparams] at hword
    · simp [Command.discriminant, hparams, rowAndDates, Param.required] at hword
    all_goals
      obtain rfl := Option.some.inj ((discriminant_comparison hparams).symm.trans hword)
      refine ⟨hname, rfl, ?_⟩
    · exact .inl ⟨_, _, hparams, by decide, by decide, rfl⟩
    · exact .inl ⟨_, _, hparams, by decide, by decide, rfl⟩
    · exact .inl ⟨_, _, hparams, by decide, by decide, rfl⟩
    · exact .inr ⟨hparams, rfl⟩

end Almanac.CommandTable
