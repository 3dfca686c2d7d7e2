import Almanac.Proofs.Query.Listing
import Almanac.Proofs.Query.Reading
import Almanac.Proofs.Table.Builtin

/-!
The language of the built-in commands. A line is a query exactly when the texts of its tokens
can be derived from a grammar in which every sub-query is an aggregate of a row. Two sub-queries
that follow one another can be told apart in one way only, since no argument is a command word;
so the last command word is where the second one starts.
-/

namespace Almanac.Grammar

open Argument CommandTable Query

inductive Days (days : Nat) : List String → Prop
  | whole {row : String} (hrow : IsRow row) : Days days [row]
  | since {row start : String} (hrow : IsRow row) (hstart : IsDate days start) :
    Days days [row, start]
  | between {row start stop : String} (hrow : IsRow row) (hstart : IsDate days start)
    (hstop : IsDate days stop) : Days days [row, start, stop]

/-- The queries that may stand inside another one. -/
inductive Sub (days : Nat) : List String → Prop
  | aggregate {word : String} {args : List String} (hword : word ∈ ["min", "max", "avg"])
    (hargs : Days days args) : Sub days (word :: args)
  | value {row day : String} (hrow : IsRow row) (hday : IsDate days day) :
    Sub days ["value", row, day]

inductive Top (days : Nat) : List String → Prop
  | sub {texts : List String} (h : Sub days texts) : Top days texts
  | plain {word : String} (hword : word ∈ ["help", "input", "clear", "table"]) : Top days [word]
  | histogram {args : List String} (hargs : Days days args) : Top days ("histogram" :: args)
  | coord {latitude longitude : String} {texts : List String} (hlatitude : IsNumber latitude)
    (hlongitude : IsNumber longitude) (hsub : Sub days texts) :
    Top days ("compare" :: "coord" :: latitude :: longitude :: texts)
  | zip {code : String} {texts : List String} (hcode : IsNumber code) (hsub : Sub days texts) :
    Top days ("compare" :: "zip" :: code :: texts)
  | city {name : String} {texts : List String} (hname : IsText name) (hsub : Sub days texts) :
    Top days ("compare" :: "city" :: name :: texts)
  | dataset {first second : List String} (hfirst : Sub days first) (hsecond : Sub days second) :
    Top days ("compare" :: "dataset" :: (first ++ second))

/-- What a line must be: inside another query a sub-query, else any query. -/
def Derives (days : Nat) (nested : Bool) (texts : List String) : Prop :=
  if nested then Sub days texts else Top days texts

/-! Command words -/

theorem not_command_of_isRow {text : String} (h : IsRow text) :
    builtin.isCommandName text = false := by
  rw [Bool.eq_false_iff, Ne, isCommandName_builtin_iff]
  intro hword
  have hticks : ∀ word ∈ commandWords, word.toList.head? ≠ some '`' := by decide +kernel
  exact hticks text hword h.2.1

theorem not_command_of_isDate {days : Nat} {text : String} (h : IsDate days text) :
    builtin.isCommandName text = false := by
  rw [Bool.eq_false_iff, Ne, isCommandName_builtin_iff]
  intro hword
  have hlengths : ∀ word ∈ commandWords, word.length ≠ 1 ∧ word.length ≠ 2 ∧ word.length ≠ 10 := by
    decide +kernel
  obtain ⟨h1, h2, h10⟩ := hlengths text hword
  rcases h with ⟨hshort | hshort, _⟩ | ⟨hlong, _⟩
  · exact h1 hshort
  · exact h2 hshort
  · exact h10 hlong

theorem Days.no_command {days : Nat} {texts : List String} (h : Days days texts) :
    ∀ text ∈ texts, builtin.isCommandName text = false := by
  cases h with
  | whole hrow => simp [not_command_of_isRow hrow]
  | since hrow hstart => simp [not_command_of_isRow hrow, not_command_of_isDate hstart]
  | between hrow hstart hstop =>
    simp [not_command_of_isRow hrow, not_command_of_isDate hstart, not_command_of_isDate hstop]

/-- A sub-query starts with a command word and has no other. -/
theorem Sub.one_command {days : Nat} {texts : List String} (h : Sub days texts) :
    ∃ word args, texts = word :: args ∧ builtin.isCommandName word = true ∧
      ∀ text ∈ args, builtin.isCommandName text = false := by
  cases h with
  | @aggregate word args hword hargs =>
    have hcommands : ∀ word ∈ ["min", "max", "avg"], word ∈ commandWords := by decide
    exact ⟨word, args, rfl, isCommandName_builtin_iff.mpr (hcommands word hword), hargs.no_command⟩
  | value hrow hday =>
    exact ⟨"value", _, rfl, isCommandName_builtin_iff.mpr (by decide),
      by simp [not_command_of_isRow hrow, not_command_of_isDate hday]⟩

/-- The second of two sub-queries starts at the last command word. -/
theorem secondStart?_of_sub {days : Nat} {first second : List Token}
    (h : Sub days (second.map Token.text)) :
    secondStart? builtin (first ++ second) = some first.length := by
  obtain ⟨word, args, htexts, hword, hargs⟩ := h.one_command
  obtain ⟨head, tail, rfl, rfl, rfl⟩ := List.map_eq_cons_iff.mp htexts
  exact lastIndex?_append_cons (p := fun t : Token => builtin.isCommandName t.text) hword
    (fun t ht => hargs t.text (List.mem_map_of_mem ht)) first

/-- Tokens are two sub-queries in at most one way. -/
theorem sub_append_unique {days : Nat} {first second first' second' : List Token}
    (h : Sub days (second.map Token.text)) (h' : Sub days (second'.map Token.text))
    (happend : first' ++ second' = first ++ second) : first' = first ∧ second' = second := by
  have hstart : secondStart? builtin (first ++ second) = _ := secondStart?_of_sub h
  rw [← happend, secondStart?_of_sub h', Option.some.injEq] at hstart
  exact List.append_inj happend hstart

/-! What may follow a command word -/

variable {days lineLength : Nat} {nested : Bool} {stop : Nat} {c : Command} {tail : List Token}

theorem days_iff {texts : List String} :
    Days days texts ↔
      ∃ row dates, texts = row :: dates ∧ IsRow row ∧ dates.length ≤ 2 ∧
        ∀ date ∈ dates, IsDate days date := by
  constructor
  · intro h
    rcases h with hrow | ⟨hrow, hstart⟩ | ⟨hrow, hstart, hstop⟩
    · exact ⟨_, [], rfl, hrow, by simp, by simp⟩
    · exact ⟨_, [_], rfl, hrow, by simp, by simpa using hstart⟩
    · exact ⟨_, [_, _], rfl, hrow, by simp, by simpa using ⟨hstart, hstop⟩⟩
  · intro h
    obtain ⟨row, dates, rfl, hrow, hlength, hdates⟩ := h
    rcases dates with _ | ⟨start, _ | ⟨stop, _ | ⟨extra, more⟩⟩⟩
    · exact .whole hrow
    · exact .since hrow (hdates start (by simp))
    · exact .between hrow (hdates start (by simp)) (hdates stop (by simp))
    · simp at hlength

theorem follows_rowAndDates (h : c.params = rowAndDates) :
    Follows builtin days lineLength nested stop c tail ↔ Days days (tail.map Token.text) := by
  have hslots : c.subQueryParams = [] := by rw [Command.subQueryParams, h]; rfl
  have hrequired : c.required.length = 1 := by rw [Command.required, Command.positional, h]; rfl
  rw [follows_of_no_slot hslots, hrequired, h, days_iff]
  rcases tail with _ | ⟨row, _ | ⟨start, _ | ⟨stop, _ | ⟨extra, more⟩⟩⟩⟩
  · simp
  · simp [rowAndDates, Param.required, fits_row_iff]
  · simp [rowAndDates, Param.required, Param.omittable, fits_row_iff, fits_date_iff]
  · simp [rowAndDates, Param.required, Param.omittable, fits_row_iff, fits_date_iff]
  · simp [rowAndDates]

theorem follows_valueParams (h : c.params = valueParams) :
    Follows builtin days lineLength nested stop c tail ↔
      ∃ row day, tail.map Token.text = [row, day] ∧ IsRow row ∧ IsDate days day := by
  have hslots : c.subQueryParams = [] := by rw [Command.subQueryParams, h]; rfl
  have hrequired : c.required.length = 2 := by rw [Command.required, Command.positional, h]; rfl
  rw [follows_of_no_slot hslots, hrequired, h]
  rcases tail with _ | ⟨row, _ | ⟨day, _ | ⟨extra, more⟩⟩⟩
  · simp
  · simp
  · simp [valueParams, Param.required, fits_row_iff, fits_date_iff]
  · simp [valueParams]

theorem follows_nil (h : c.params = []) :
    Follows builtin days lineLength nested stop c tail ↔ tail = [] := by
  have hslots : c.subQueryParams = [] := by rw [Command.subQueryParams, h]; rfl
  have hrequired : c.required.length = 0 := by rw [Command.required, Command.positional, h]; rfl
  rw [follows_of_no_slot hslots, hrequired, h]
  simp

/-- The arguments of a comparison fit one by one, and the rest are its sub-query's tokens. -/
theorem follows_comparison {word : String} {own : List Param} {slot : Param}
    (h : c.params = comparison word own [slot])
    (hown : ∀ p ∈ own, p.kind ≠ .subQuery ∧ p.optional = false) (hslot : slot.kind = .subQuery) :
    Follows builtin days lineLength nested stop c tail ↔
      ∃ lead args rest, tail = lead :: (args ++ rest) ∧ args.length = own.length ∧
        (∀ bound ∈ own.zip args, Fits days bound.1.kind bound.2.text) ∧
        Forms builtin days lineLength true rest := by
  obtain ⟨hpositional, hrequired, hslots⟩ :=
    comparison_params h hown (by simpa using hslot)
  have hzip (args rest : List Token) (hlength : args.length = own.length) :
      own.zip (args ++ rest) = own.zip args := by
    have happend : (own ++ []).zip (args ++ rest) = own.zip args ++ ([] : List Param).zip rest :=
      List.zip_append hlength.symm
    simpa using happend
  rw [follows_of_one_slot hslots, hrequired, hpositional]
  constructor
  · intro hfollows
    obtain ⟨hlength, hforms, hfits⟩ := hfollows
    cases tail with
    | nil => simp at hlength
    | cons lead rest =>
      simp only [List.length_cons, Nat.add_le_add_iff_right] at hlength
      have htake : (rest.take own.length).length = own.length := by
        rw [List.length_take, Nat.min_eq_left hlength]
      refine ⟨lead, rest.take own.length, rest.drop own.length,
        by rw [List.take_append_drop], htake, ?_, by simpa using hforms⟩
      rw [← hzip _ (rest.drop own.length) htake, List.take_append_drop]
      rw [List.zip_cons_cons, List.forall_mem_cons] at hfits
      exact hfits.2
  · intro hparts
    obtain ⟨lead, args, rest, rfl, hlength, hfits, hforms⟩ := hparts
    refine ⟨by simp [hlength], ?_, ?_⟩
    · rwa [List.length_cons, List.drop_succ_cons, ← hlength, List.drop_left]
    · rw [List.zip_cons_cons, List.forall_mem_cons, hzip args rest hlength]
      exact ⟨fits_enum, hfits⟩

/-- After the word of its kind, a comparison of two sub-queries has the tokens of both. -/
theorem follows_two {word : String} {first second : Param}
    (h : c.params = comparison word [] [first, second]) (hfirst : first.kind = .subQuery)
    (hsecond : second.kind = .subQuery) :
    Follows builtin days lineLength nested stop c tail ↔
      ∃ lead left right, tail = lead :: (left ++ right) ∧
        secondStart? builtin (left ++ right) = some left.length ∧
        Forms builtin days lineLength true left ∧ Forms builtin days lineLength true right := by
  obtain ⟨hpositional, hrequired, hslots⟩ :=
    comparison_params h (by simp) (by simpa using ⟨hfirst, hsecond⟩)
  rw [follows_of_two_slots hslots, hrequired, hpositional]
  constructor
  · intro hfollows
    obtain ⟨hlength, ⟨left, right, hrest, hstart, hleft, hright⟩, _⟩ := hfollows
    cases tail with
    | nil => simp at hlength
    | cons lead rest => exact ⟨lead, left, right, by simpa using hrest, hstart, hleft, hright⟩
  · intro hparts
    obtain ⟨lead, left, right, rfl, hstart, hleft, hright⟩ := hparts
    exact ⟨by simp, ⟨left, right, by simp, hstart, hleft, hright⟩,
      List.forall_mem_cons.mpr ⟨fits_enum, by simp⟩⟩

/-! The commands of the grammar -/

theorem forms_builtin_iff {head : Token} :
    Forms builtin days lineLength nested (head :: tail) ↔
      ∃ c ∈ builtin.commands,
        (c.name = head.text ∧ c.visibleIn nested = true ∧
          (c.discriminant = none ∨ c.discriminant = tail.head?.map Token.text)) ∧
        Follows builtin days lineLength nested (runSpan head tail).stop c tail := by
  simp only [forms_cons_iff, resolve_builtin_iff, Command.answers_iff, and_assoc]

/-- The built-in commands of sub-queries are followed by what the grammar says. -/
theorem sub_iff_follows {word : String} :
    Sub days (word :: tail.map Token.text) ↔
      ∃ c ∈ builtin.commands, (c.name = word ∧ c.canSubQuery = true) ∧
        Follows builtin days lineLength nested stop c tail := by
  constructor
  · intro h
    generalize htail : tail.map Token.text = args at h
    cases h with
    | aggregate hword hargs =>
      have hcommands : ∀ word ∈ ["min", "max", "avg"], ∃ c ∈ builtin.commands,
          (c.name = word ∧ c.canSubQuery = true) ∧ c.params = rowAndDates := by
        decide +kernel
      obtain ⟨c, hmem, hname, hparams⟩ := hcommands word hword
      exact ⟨c, hmem, hname, (follows_rowAndDates hparams).mpr (htail ▸ hargs)⟩
    | value hrow hday =>
      have hcommand : ∃ c ∈ builtin.commands,
          (c.name = "value" ∧ c.canSubQuery = true) ∧ c.params = valueParams := by
        decide +kernel
      obtain ⟨c, hmem, hname, hparams⟩ := hcommand
      exact ⟨c, hmem, hname, (follows_valueParams hparams).mpr ⟨_, _, htail, hrow, hday⟩⟩
  · intro hcommand
    obtain ⟨c, hmem, ⟨hname, hnested⟩, hfollows⟩ := hcommand
    rw [← hname]
    rcases builtin_nested c hmem hnested with ⟨hword, hparams⟩ | ⟨hword, hparams⟩
    · exact .aggregate hword ((follows_rowAndDates hparams).mp hfollows)
    · obtain ⟨row, day, htexts, hrow, hday⟩ := (follows_valueParams hparams).mp hfollows
      rw [htexts, hword]
      exact .value hrow hday

/-- Inside another query exactly the sub-queries are read. -/
theorem forms_nested_iff {tokens : List Token} :
    Forms builtin days lineLength true tokens ↔ Sub days (tokens.map Token.text) := by
  cases tokens with
  | nil =>
    refine iff_of_false not_forms_nil ?_
    rintro ⟨⟩
  | cons head tail =>
    rw [forms_builtin_iff, List.map_cons, sub_iff_follows]
    refine exists_congr fun c => and_congr_right fun hmem => and_congr_left' ?_
    simp only [Command.visibleIn, Bool.not_true, Bool.or_false]
    constructor
    · intro h
      obtain ⟨hname, hnested, _⟩ := h
      exact ⟨hname, hnested⟩
    · intro h
      obtain ⟨hname, hnested⟩ := h
      exact ⟨hname, hnested, .inl (builtin_nested_bare c hmem hnested)⟩

/-- A comparison with the archive, in the words of the grammar. -/
theorem comparison_iff {word : String} {own : List Param} {slot : Param}
    (h : c.params = comparison word own [slot])
    (hown : ∀ p ∈ own, p.kind ≠ .subQuery ∧ p.optional = false) (hslot : slot.kind = .subQuery) :
    c.discriminant = tail.head?.map Token.text ∧
        Follows builtin days lineLength nested stop c tail ↔
      ∃ args texts, tail.map Token.text = word :: (args ++ texts) ∧
        List.Forall₂ (fun p text => Fits days p.kind text) own args ∧ Sub days texts := by
  rw [discriminant_comparison h, follows_comparison h hown hslot]
  constructor
  · intro hparts
    obtain ⟨hlead, lead, args, rest, rfl, hlength, hfits, hforms⟩ := hparts
    obtain rfl : word = lead.text := by simpa using hlead
    refine ⟨args.map Token.text, rest.map Token.text, by simp, ?_, forms_nested_iff.mp hforms⟩
    rw [List.forall₂_map_right_iff, List.forall₂_iff_zip]
    exact ⟨hlength.symm, fun {p t} hzip => hfits (p, t) hzip⟩
  · intro htexts
    obtain ⟨texts, rest, htail, hfits, hsub⟩ := htexts
    obtain ⟨lead, after, rfl, rfl, hafter⟩ := List.map_eq_cons_iff.mp htail
    obtain ⟨args, rest, rfl, rfl, rfl⟩ := List.map_eq_append_iff.mp hafter
    rw [List.forall₂_map_right_iff, List.forall₂_iff_zip] at hfits
    exact ⟨rfl, lead, args, rest, rfl, hfits.1.symm, fun bound hzip => hfits.2 hzip,
      forms_nested_iff.mpr hsub⟩

/-- A comparison of two sub-queries, in the words of the grammar. -/
theorem pair_iff {word : String} {first second : Param}
    (h : c.params = comparison word [] [first, second]) (hfirst : first.kind = .subQuery)
    (hsecond : second.kind = .subQuery) :
    c.discriminant = tail.head?.map Token.text ∧
        Follows builtin days lineLength nested stop c tail ↔
      ∃ left right, tail.map Token.text = word :: (left ++ right) ∧ Sub days left ∧
        Sub days right := by
  rw [discriminant_comparison h, follows_two h hfirst hsecond]
  constructor
  · intro hparts
    obtain ⟨hlead, lead, left, right, rfl, _, hleft, hright⟩ := hparts
    obtain rfl : word = lead.text := by simpa using hlead
    exact ⟨left.map Token.text, right.map Token.text, by simp, forms_nested_iff.mp hleft,
      forms_nested_iff.mp hright⟩
  · intro htexts
    obtain ⟨left, right, htail, hleft, hright⟩ := htexts
    obtain ⟨lead, after, rfl, rfl, hafter⟩ := List.map_eq_cons_iff.mp htail
    obtain ⟨left, right, rfl, rfl, rfl⟩ := List.map_eq_append_iff.mp hafter
    exact ⟨rfl, lead, left, right, rfl, secondStart?_of_sub hright, forms_nested_iff.mpr hleft,
      forms_nested_iff.mpr hright⟩

theorem fits_pair_iff {p q : Param} {args : List String} :
    List.Forall₂ (fun p text => Fits days p.kind text) [p, q] args ↔
      ∃ a b, args = [a, b] ∧ Fits days p.kind a ∧ Fits days q.kind b := by
  simp only [List.forall₂_cons_left_iff, List.forall₂_nil_left_iff]
  constructor
  · intro h
    obtain ⟨a, _, ha, ⟨b, _, hb, rfl, rfl⟩, rfl⟩ := h
    exact ⟨a, b, rfl, ha, hb⟩
  · intro h
    obtain ⟨a, b, rfl, ha, hb⟩ := h
    exact ⟨a, [b], ha, ⟨b, [], hb, rfl, rfl⟩, rfl⟩

theorem fits_single_iff {p : Param} {args : List String} :
    List.Forall₂ (fun p text => Fits days p.kind text) [p] args ↔
      ∃ a, args = [a] ∧ Fits days p.kind a := by
  simp only [List.forall₂_cons_left_iff, List.forall₂_nil_left_iff]
  constructor
  · intro h
    obtain ⟨a, _, ha, rfl, rfl⟩ := h
    exact ⟨a, rfl, ha⟩
  · intro h
    obtain ⟨a, rfl, ha⟩ := h
    exact ⟨a, [], ha, rfl, rfl⟩

/-- What follows a command that stands alone makes a line of the grammar. -/
theorem top_of_follows {word : String} (hmem : c ∈ builtin.commands) (hname : c.name = word)
    (houter : c.canSubQuery = false)
    (hnext : c.discriminant = none ∨ c.discriminant = tail.head?.map Token.text)
    (hfollows : Follows builtin days lineLength nested stop c tail) :
    Top days (word :: tail.map Token.text) := by
  rw [← hname]
  rcases builtin_outer c hmem houter with ⟨hword, hparams⟩ | ⟨hword, hparams⟩ |
    ⟨hword, hparams⟩ | ⟨hword, hparams⟩ | ⟨hword, hparams⟩ | ⟨hword, hparams⟩
  · rw [(follows_nil hparams).mp hfollows]
    exact .plain hword
  · rw [hword]
    exact .histogram ((follows_rowAndDates hparams).mp hfollows)
  · have hlead := hnext.resolve_left (by simp [discriminant_comparison hparams])
    obtain ⟨args, texts, htail, hfits, hsub⟩ :=
      (comparison_iff hparams (by decide) rfl).mp ⟨hlead, hfollows⟩
    obtain ⟨latitude, longitude, rfl, hlatitude, hlongitude⟩ := fits_pair_iff.mp hfits
    rw [hword, htail]
    exact .coord (fits_number_iff.mp hlatitude) (fits_number_iff.mp hlongitude) hsub
  · have hlead := hnext.resolve_left (by simp [discriminant_comparison hparams])
    obtain ⟨args, texts, htail, hfits, hsub⟩ :=
      (comparison_iff hparams (by decide) rfl).mp ⟨hlead, hfollows⟩
    obtain ⟨code, rfl, hcode⟩ := fits_single_iff.mp hfits
    rw [hword, htail]
    exact .zip (fits_int_iff.mp hcode) hsub
  · have hlead := hnext.resolve_left (by simp [discriminant_comparison hparams])
    obtain ⟨args, texts, htail, hfits, hsub⟩ :=
      (comparison_iff hparams (by decide) rfl).mp ⟨hlead, hfollows⟩
    obtain ⟨name, rfl, hname⟩ := fits_single_iff.mp hfits
    rw [hword, htail]
    exact .city (fits_string_iff.mp hname) hsub
  · have hlead := hnext.resolve_left (by simp [discriminant_comparison hparams])
    obtain ⟨left, right, htail, hleft, hright⟩ :=
      (pair_iff hparams rfl rfl).mp ⟨hlead, hfollows⟩
    rw [hword, htail]
    exact .dataset hleft hright

/-- A line of the grammar is a command with what may follow it. -/
theorem exists_follows_of_top {word : String} (h : Top days (word :: tail.map Token.text)) :
    ∃ c ∈ builtin.commands,
      (c.name = word ∧ (c.discriminant = none ∨ c.discriminant = tail.head?.map Token.text)) ∧
        Follows builtin days lineLength nested stop c tail := by
  generalize htail : tail.map Token.text = texts at h
  cases h with
  | sub hsub =>
    rw [← htail] at hsub
    obtain ⟨c, hmem, ⟨hname, hnested⟩, hfollows⟩ := sub_iff_follows.mp hsub
    exact ⟨c, hmem, ⟨hname, .inl (builtin_nested_bare c hmem hnested)⟩, hfollows⟩
  | plain hword =>
    have hcommands : ∀ word ∈ ["help", "input", "clear", "table"], ∃ c ∈ builtin.commands,
        (c.name = word ∧ c.discriminant = none) ∧ c.params = [] := by
      decide +kernel
    obtain ⟨c, hmem, ⟨hname, hbare⟩, hparams⟩ := hcommands word hword
    exact ⟨c, hmem, ⟨hname, .inl hbare⟩, (follows_nil hparams).mpr (List.map_eq_nil_iff.mp htail)⟩
  | histogram hargs =>
    have hcommand : ∃ c ∈ builtin.commands,
        (c.name = "histogram" ∧ c.discriminant = none) ∧ c.params = rowAndDates := by
      decide +kernel
    obtain ⟨c, hmem, ⟨hname, hbare⟩, hparams⟩ := hcommand
    exact ⟨c, hmem, ⟨hname, .inl hbare⟩, (follows_rowAndDates hparams).mpr (htail ▸ hargs)⟩
  | @coord latitude longitude texts hlatitude hlongitude hsub =>
    obtain ⟨c, hmem, hname, hparams⟩ : ∃ c ∈ builtin.commands, c.name = "compare" ∧
        c.params = coordParams := by
      decide +kernel
    obtain ⟨hnext, hfollows⟩ := (comparison_iff hparams (by decide) rfl).mpr
      ⟨_, texts, htail, fits_pair_iff.mpr ⟨latitude, longitude, rfl, fits_number_iff.mpr hlatitude,
        fits_number_iff.mpr hlongitude⟩, hsub⟩
    exact ⟨c, hmem, ⟨hname, .inr hnext⟩, hfollows⟩
  | @zip code texts hcode hsub =>
    obtain ⟨c, hmem, hname, hparams⟩ : ∃ c ∈ builtin.commands, c.name = "compare" ∧
        c.params = zipParams := by
      decide +kernel
    obtain ⟨hnext, hfollows⟩ := (comparison_iff hparams (by decide) rfl).mpr
      ⟨_, texts, htail, fits_single_iff.mpr ⟨code, rfl, fits_int_iff.mpr hcode⟩, hsub⟩
    exact ⟨c, hmem, ⟨hname, .inr hnext⟩, hfollows⟩
  | @city name texts hcity hsub =>
    obtain ⟨c, hmem, hname, hparams⟩ : ∃ c ∈ builtin.commands, c.name = "compare" ∧
        c.params = cityParams := by
      decide +kernel
    obtain ⟨hnext, hfollows⟩ := (comparison_iff hparams (by decide) rfl).mpr
      ⟨_, texts, htail, fits_single_iff.mpr ⟨name, rfl, fits_string_iff.mpr hcity⟩, hsub⟩
    exact ⟨c, hmem, ⟨hname, .inr hnext⟩, hfollows⟩
  | @dataset first second hfirst hsecond =>
    obtain ⟨c, hmem, hname, hparams⟩ := exists_dataset
    obtain ⟨hnext, hfollows⟩ :=
      (pair_iff hparams rfl rfl).mpr ⟨first, second, htail, hfirst, hsecond⟩
    exact ⟨c, hmem, ⟨hname, .inr hnext⟩, hfollows⟩

/-- Outside of any other query exactly the lines of the grammar are read. -/
theorem forms_outer_iff {tokens : List Token} :
    Forms builtin days lineLength false tokens ↔ Top days (tokens.map Token.text) := by
  cases tokens with
  | nil =>
    refine iff_of_false not_forms_nil ?_
    rintro ⟨⟨⟩⟩
  | cons head tail =>
    rw [forms_builtin_iff, List.map_cons]
    constructor
    · intro hcommand
      obtain ⟨c, hmem, ⟨hname, _, hnext⟩, hfollows⟩ := hcommand
      cases hnested : c.canSubQuery with
      | true => exact .sub (sub_iff_follows.mpr ⟨c, hmem, ⟨hname, hnested⟩, hfollows⟩)
      | false => exact top_of_follows hmem hname hnested hnext hfollows
    · intro h
      obtain ⟨c, hmem, ⟨hname, hnext⟩, hfollows⟩ := exists_follows_of_top h
      exact ⟨c, hmem, ⟨hname, by simp [Command.visibleIn], hnext⟩, hfollows⟩

/-- The tokens of a query are those that the grammar derives, in either nesting. -/
theorem forms_iff_derives {tokens : List Token} :
    Forms builtin days lineLength nested tokens ↔
      Derives days nested (tokens.map Token.text) := by
  cases nested with
  | true => exact forms_nested_iff
  | false => exact forms_outer_iff

/-- Two sub-queries are read from the tokens that they are derived from. -/
theorem ofTokens_dataset (lineLength : Nat) {head lead : Token} {first second : List Token}
    (hhead : head.text = "compare") (hlead : lead.text = "dataset")
    (hfirst : Sub days (first.map Token.text)) (hsecond : Sub days (second.map Token.text)) :
    ∃ q s t, ofTokens builtin days lineLength false (head :: lead :: (first ++ second)) = .ok q ∧
      q.subQueries = [s, t] ∧ ofTokens builtin days lineLength true first = .ok s ∧
      ofTokens builtin days lineLength true second = .ok t := by
  have hforms : Forms builtin days lineLength false (head :: lead :: (first ++ second)) := by
    rw [forms_outer_iff, List.map_cons, List.map_cons, hhead, hlead, List.map_append]
    exact .dataset hfirst hsecond
  obtain ⟨q, hq⟩ := hforms
  obtain ⟨c, args, runs, subQueries, hheads, hsubs, rfl⟩ := ofTokens_cons_eq_ok_iff.mp hq
  -- The command is the comparison of two sub-queries, and its runs meet at the second word.
  obtain ⟨d, hmem, hname, hparams⟩ := exists_dataset
  have hselected := hheads.resolved
  rw [resolve_builtin_iff.mpr ⟨hmem, Command.answers_iff.mpr ⟨hname.trans hhead.symm,
    by simp [Command.visibleIn], .inr (by simp [discriminant_comparison hparams, hlead])⟩⟩]
    at hselected
  obtain rfl := Option.some.inj hselected
  obtain ⟨hpositional, _, hslots⟩ := comparison_params hparams (by simp) (by decide)
  have hne : first ≠ [] := by
    intro heq
    subst heq
    cases hfirst
  have hdivided := hheads.divided
  rw [divide_of_two_slots hslots, hpositional, List.length_singleton, List.drop_one,
    List.tail_cons, divideInTwo_append hne (secondStart?_of_sub hsecond)] at hdivided
  obtain rfl : [first, second] = runs := congrArg Division.runs hdivided
  obtain ⟨s, _, hs, hrest, rfl⟩ := List.forall₂_cons_left_iff.mp hsubs
  obtain ⟨t, _, ht, hnil, rfl⟩ := List.forall₂_cons_left_iff.mp hrest
  obtain rfl := List.forall₂_nil_left_iff.mp hnil
  exact ⟨_, s, t, hq, rfl, hs, ht⟩

/-- A line is valid exactly when the grammar derives the texts of its tokens. After the words
of a comparison of two sub-queries there is at most one way to divide the tokens into two
sub-queries, and it is the one in which they are read. -/
theorem isValid_iff_derives (days : Nat) :
    (∀ (nested : Bool) (line : String), isValid builtin days nested line = true ↔
      Derives days nested ((tokenize line).map Token.text)) ∧
    ∀ (line : String) (head lead : Token) (first second : List Token),
      tokenize line = head :: lead :: (first ++ second) →
      head.text = "compare" → lead.text = "dataset" →
      Sub days (first.map Token.text) → Sub days (second.map Token.text) →
      (∀ left right, left ++ right = first ++ second → Sub days (left.map Token.text) →
        Sub days (right.map Token.text) → left = first ∧ right = second) ∧
      ∃ q s t, Query.parse builtin days false line = .ok q ∧ q.subQueries = [s, t] ∧
        s.tokens = first ∧ t.tokens = second := by
  constructor
  · intro nested line
    rw [isValid_iff, forms_iff_derives]
  · intro line head lead first second hline hhead hlead hfirst hsecond
    constructor
    · intro left right happend _ hright
      exact sub_append_unique hsecond hright happend
    · obtain ⟨q, s, t, hq, hsubs, hs, ht⟩ :=
        ofTokens_dataset (Text.byteLength line) hhead hlead hfirst hsecond
      have hordered := Token.pairwise_tokenize line
      rw [hline, List.pairwise_cons, List.pairwise_cons, List.pairwise_append] at hordered
      refine ⟨q, s, t, ?_, hsubs, ?_, ?_⟩
      · rw [Query.parse, hline, hq]
      · exact (tokens_of_ofTokens hs hordered.2.2.1).1
      · exact (tokens_of_ofTokens ht hordered.2.2.2.1).1

theorem isValid_iff_derives_comparison :
    isValid builtin 3 false "compare dataset min `a` 0 max `b` -1" = true ∧
      ∃ q s t, Query.parse builtin 3 false "compare dataset min `a` 0 max `b` -1" = .ok q ∧
        q.subQueries = [s, t] ∧ s.tokens = [⟨"min", 16⟩, ⟨"`a`", 20⟩, ⟨"0", 24⟩] ∧
        t.tokens = [⟨"max", 26⟩, ⟨"`b`", 30⟩, ⟨"-1", 34⟩] := by
  have hfirst : Sub 3 ["min", "`a`", "0"] :=
    .aggregate (by decide) (.since ⟨by decide +kernel, by decide +kernel, by decide +kernel⟩
      (.inl ⟨.inl (by decide +kernel), 0, by decide +kernel, by decide, by decide⟩))
  have hsecond : Sub 3 ["max", "`b`", "-1"] :=
    .aggregate (by decide) (.since ⟨by decide +kernel, by decide +kernel, by decide +kernel⟩
      (.inl ⟨.inr (by decide +kernel), -1, by decide +kernel, by decide, by decide⟩))
  have hline : tokenize "compare dataset min `a` 0 max `b` -1" = ⟨"compare", 0⟩ ::
      ⟨"dataset", 8⟩ :: ([⟨"min", 16⟩, ⟨"`a`", 20⟩, ⟨"0", 24⟩] ++
        [⟨"max", 26⟩, ⟨"`b`", 30⟩, ⟨"-1", 34⟩]) := by
    decide +kernel
  refine ⟨((isValid_iff_derives 3).1 false _).mpr ?_, ?_⟩
  · rw [hline]
    exact .dataset hfirst hsecond
  · exact ((isValid_iff_derives 3).2 _ _ _ _ _ hline rfl rfl hfirst hsecond).2

end Almanac.Grammar
