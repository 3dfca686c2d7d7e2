import Almanac.Proofs.Evaluation.Stepwise

/-!
What an evaluation asks of remote services. Only a comparison with the archive asks for anything.
It takes the number of its sub-query first, so that nothing is asked when that fails. Then the
location is looked up if it is no point, and the archive is asked about the place that was found,
if there is one and its days can be named. What the services would say to anything else does not
matter.
-/

namespace Almanac

/-- The location that the variant of a comparison and its arguments stand for. -/
inductive Location.NamedBy (q : Query) : Location → Prop
  | coord {latitude longitude : Float} (hvariant : q.variant = some "coord")
    (hlatitude : q.number? "latitude" = some latitude)
    (hlongitude : q.number? "longitude" = some longitude) :
    NamedBy q (.point ⟨latitude, longitude⟩)
  | zip {a : Argument} (hvariant : q.variant = some "zip") (harg : q.arg? "zip code" = some a) :
    NamedBy q (.zip a.raw)
  | city {a : Argument} {name : String} (hvariant : q.variant = some "city")
    (harg : q.arg? "city name" = some a) (htext : a.value = .text name) : NamedBy q (.city name)

namespace Query

variable {q : Query}

theorem need_eq_ok_iff {α : Type} {name : String} {value : Option α} {found : α} :
    q.need name value = .ok found ↔ value = some found := by
  cases value <;> simp [need, lacks]

theorem text?_eq_some_iff {name content : String} :
    q.text? name = some content ↔ ∃ a, q.arg? name = some a ∧ a.value = .text content := by
  unfold text?
  cases q.arg? name with
  | none => simp
  | some a => cases hvalue : a.value <;> simp [hvalue]

end Query

theorem Location.namedBy_of_ofQuery {q : Query} {variant : String} {location : Location}
    (hvariant : q.variant = some variant) (h : Location.ofQuery variant q = .ok location) :
    location.NamedBy q := by
  unfold Location.ofQuery at h
  split at h
  · simp only [bind_eq_ok_iff, Query.need_eq_ok_iff] at h
    obtain ⟨latitude, hlatitude, longitude, hlongitude, hdone⟩ := h
    obtain rfl := Except.ok.inj hdone
    exact .coord hvariant hlatitude hlongitude
  · obtain ⟨code, hcode, rfl⟩ := map_eq_ok_iff.mp h
    obtain ⟨a, ha, rfl⟩ := Option.map_eq_some_iff.mp (Query.need_eq_ok_iff.mp hcode)
    exact .zip hvariant ha
  · obtain ⟨name, hname, rfl⟩ := map_eq_ok_iff.mp h
    obtain ⟨a, ha, htext⟩ := Query.text?_eq_some_iff.mp (Query.need_eq_ok_iff.mp hname)
    exact .city hvariant ha htext
  · cases h

/-- A comparison with the archive is one of the three variants that name a location. -/
theorem Action.of_compareWith {q : Query} {location : Location} {m : Measure}
    (h : Action.ofQuery q = .ok (.compareWith location m)) :
    q.command = "compare" ∧ location.NamedBy q := by
  unfold Action.ofQuery at h
  split at h
  · cases h
  · cases h
  · cases h
  · cases h
  · obtain ⟨_, _, hchart⟩ := map_eq_ok_iff.mp h
    cases hchart
  · rename_i hcommand
    split at h
    · cases h
    · unfold Action.bothOfQuery at h
      split at h
      · simp only [bind_eq_ok_iff] at h
        obtain ⟨_, _, _, _, hboth⟩ := h
        cases hboth
      · cases h
    · rename_i variant _ hvariant
      obtain ⟨found, hfound, h⟩ := bind_eq_ok_iff.mp h
      split at h
      · obtain ⟨_, _, hdone⟩ := map_eq_ok_iff.mp h
        obtain ⟨rfl, _⟩ := Action.compareWith.inj hdone
        exact ⟨hcommand, Location.namedBy_of_ofQuery hvariant hfound⟩
      · cases h
  · split at h
    · obtain ⟨_, _, hmeasure⟩ := map_eq_ok_iff.mp h
      cases hmeasure
    · cases h

/-- Only what stands in double quotes is read as a text. -/
theorem Argument.raw_of_readValue {days : Nat} {raw content : String} {kind : ParamKind}
    (h : readValue days raw kind = .ok (.text content)) :
    raw.toList = '"' :: (content.toList ++ ['"']) := by
  cases readValue_eq_ok_iff.mp h with
  | text hraw => exact hraw

/-- In a query that was read a text stands between its quotes. -/
theorem Query.raw_of_text {table : CommandTable} {days : Nat} {nested : Bool} {line : String}
    {q : Query} (h : parse table days nested line = .ok q) {a : Argument} (ha : a ∈ q.args)
    {content : String} (htext : a.value = .text content) :
    a.raw.toList = '"' :: (content.toList ++ ['"']) := by
  unfold parse at h
  cases htokens : tokenize line with
  | nil => exact absurd (htokens ▸ h) ofTokens_nil_ne_ok
  | cons head tail =>
    rw [htokens] at h
    obtain ⟨c, args, runs, subQueries, hheads, _, rfl⟩ := ofTokens_cons_eq_ok_iff.mp h
    have hread := Argument.readValue_of_mem_bindAll hheads.bound ha
    rw [htext] at hread
    exact Argument.raw_of_readValue hread

/-! The days of a measure -/

namespace Measure

def firstDay (m : Measure) : DateToken := m.first.getD (.index 0)

/-- The last day that the archive is asked about, which for a single value is the first one. -/
def lastDay (m : Measure) : DateToken :=
  match m.kind with
  | .value => m.firstDay
  | _ => m.last.getD (.index (-1))

end Measure

theorem Dataset.archiveDays_eq_ok_iff {ds : Dataset} {m : Measure} {first last : String} :
    ds.archiveDays m = .ok (first, last) ↔
      ds.resolveDate m.firstDay = .ok first ∧ ds.resolveDate m.lastDay = .ok last := by
  have hdays : ds.archiveDays m = ds.resolveDate m.firstDay >>= fun first =>
      ds.resolveDate m.lastDay >>= fun last => pure (first, last) := by
    unfold archiveDays Measure.lastDay
    cases m.kind <;> rfl
  rw [hdays]
  simp only [bind_eq_ok_iff]
  constructor
  · intro h
    obtain ⟨_, hfirst, _, hlast, hdone⟩ := h
    obtain ⟨rfl, rfl⟩ := Prod.mk.inj (Except.ok.inj hdone)
    exact ⟨hfirst, hlast⟩
  · intro h
    exact ⟨first, h.1, last, h.2, rfl⟩

namespace Consultation

variable {α β : Type} {c c' : Consultation α} {next next' : α → Consultation β}

@[simp] theorem calls_of (result : Except Failure α) :
    (Consultation.of result).calls = [] := rfl

theorem calls_andThen_of_error {failure : Failure} (h : c.result = .error failure) :
    (c.andThen next).calls = c.calls := by
  unfold andThen
  rw [h]

theorem calls_andThen_of_ok {value : α} (h : c.result = .ok value) :
    (c.andThen next).calls = c.calls ++ (next value).calls := by
  unfold andThen
  rw [h]

/-- A call is made by what comes first, or by what follows when that has a result. -/
theorem mem_calls_andThen_iff {call : ServiceCall} :
    call ∈ (c.andThen next).calls ↔
      call ∈ c.calls ∨ ∃ value, c.result = .ok value ∧ call ∈ (next value).calls := by
  cases h : c.result with
  | error failure => simp [calls_andThen_of_error h]
  | ok value => simp [calls_andThen_of_ok h]

theorem andThen_congr (hc : c' = c)
    (hnext : ∀ value, c.result = .ok value → next' value = next value) :
    c'.andThen next' = c.andThen next := by
  subst hc
  unfold andThen
  cases h : c'.result with
  | error failure => rfl
  | ok value => simp only [hnext value h]

end Consultation

namespace Environment

open Consultation

variable {env : Environment} {span : Span} {location : Location} {m : Measure} {print : Bool}

def place (env : Environment) : Location → Except String Coordinates
  | .point place => .ok place
  | .zip code => env.services.locate code
  | .city name => env.services.locate name

theorem calls_locate : (env.locate span location).calls =
    (location.address?.map ServiceCall.locate).toList := by
  cases location <;> rfl

theorem locate_eq_ok_iff {coordinates : Coordinates} :
    (env.locate span location).result = .ok coordinates ↔ env.place location = .ok coordinates := by
  cases location with
  | point place =>
    show (Except.ok place : Except Failure Coordinates) = .ok coordinates ↔
      (Except.ok place : Except String Coordinates) = .ok coordinates
    simp
  | zip code => exact mapError_eq_ok_iff
  | city name => exact mapError_eq_ok_iff

/-! The calls of a comparison -/

theorem locate_mem_calls_compareWith {address : String} :
    .locate address ∈ (env.compareWith span location m).calls ↔
      (∃ x, env.measure m = .ok x) ∧ location.address? = some address := by
  simp only [compareWith, mem_calls_andThen_iff, Consultation.of, archive, calls_locate]
  simp

theorem archive_mem_calls_compareWith {asked : Weather.ArchiveQuery} :
    .archive asked ∈ (env.compareWith span location m).calls ↔
      (∃ x, env.measure m = .ok x) ∧ ∃ coordinates first last,
        env.place location = .ok coordinates ∧
        env.dataset.resolveDate m.firstDay = .ok first ∧
        env.dataset.resolveDate m.lastDay = .ok last ∧
        asked = ⟨coordinates, m.kind, m.row, first, last⟩ := by
  simp only [compareWith, mem_calls_andThen_iff, Consultation.of, archive, calls_locate,
    locate_eq_ok_iff, mapError_eq_ok_iff]
  simp [Dataset.archiveDays_eq_ok_iff, and_assoc]

/-- The services are asked at most once each, and the location is looked up first. -/
def InOrder (calls : List ServiceCall) : Prop :=
  ∃ (looked : Option String) (asked : Option Weather.ArchiveQuery),
    calls = (looked.map ServiceCall.locate).toList ++ (asked.map ServiceCall.archive).toList

theorem inOrder_nil : InOrder [] := ⟨none, none, rfl⟩

theorem inOrder_compareWith : InOrder (env.compareWith span location m).calls := by
  unfold compareWith
  cases hmeasure : (Consultation.of (env.measure m)).result with
  | error failure =>
    rw [calls_andThen_of_error hmeasure]
    exact inOrder_nil
  | ok x =>
    rw [calls_andThen_of_ok hmeasure, calls_of, List.nil_append]
    cases hplace : (env.locate span location).result with
    | error failure =>
      rw [calls_andThen_of_error hplace, calls_locate]
      exact ⟨location.address?, none, by simp⟩
    | ok coordinates =>
      rw [calls_andThen_of_ok hplace, calls_locate]
      refine ⟨location.address?, ?_⟩
      cases hdays : env.dataset.archiveDays m with
      | error e => exact ⟨none, rfl⟩
      | ok days =>
        refine ⟨some ⟨coordinates, m.kind, m.row, days.1, days.2⟩, ?_⟩
        congr 1
        rw [@calls_andThen_of_ok _ _ _ _ days rfl]
        cases hfound : (env.archive span ⟨coordinates, m.kind, m.row, days.1, days.2⟩).result with
        | error failure => rw [calls_andThen_of_error hfound]; rfl
        | ok archived => rw [calls_andThen_of_ok hfound]; rfl

/-- Other services that give the same answers to these calls. -/
structure Answers (services : Services) (env : Environment) (calls : List ServiceCall) :
    Prop where
  locate : ∀ address, .locate address ∈ calls →
    services.locate address = env.services.locate address
  archive : ∀ asked, .archive asked ∈ calls → services.archive asked = env.services.archive asked

def withServices (env : Environment) (services : Services) : Environment :=
  { env with services := services }

@[simp] theorem services_withServices (env : Environment) (services : Services) :
    (env.withServices services).services = services := rfl

variable {services : Services}

theorem compareWith_withServices
    (h : Answers services env (env.compareWith span location m).calls) :
    (env.withServices services).compareWith span location m =
      env.compareWith span location m := by
  refine andThen_congr rfl fun x hx => ?_
  have hmeasured : ∃ x, env.measure m = .ok x := ⟨x, hx⟩
  have hlocate : (env.withServices services).locate span location = env.locate span location := by
    have hfind (address : String) (haddress : location.address? = some address) :
        (env.withServices services).find span address = env.find span address := by
      have hsame := h.locate address (locate_mem_calls_compareWith.mpr ⟨hmeasured, haddress⟩)
      unfold find
      rw [services_withServices, hsame]
    cases location with
    | point place => rfl
    | zip code => exact hfind code rfl
    | city name => exact hfind name rfl
  refine andThen_congr hlocate fun coordinates hplace => ?_
  refine andThen_congr rfl fun days hdays => ?_
  refine andThen_congr ?_ fun _ _ => rfl
  obtain ⟨hfirst, hlast⟩ := Dataset.archiveDays_eq_ok_iff.mp (mapError_eq_ok_iff.mp hdays)
  have hsame := h.archive ⟨coordinates, m.kind, m.row, days.1, days.2⟩
    (archive_mem_calls_compareWith.mpr ⟨hmeasured, coordinates, days.1, days.2,
      locate_eq_ok_iff.mp hplace, hfirst, hlast, rfl⟩)
  unfold archive
  rw [services_withServices, hsame]

/-! The calls of an evaluation -/

theorem calls_settle {α : Type} (c : Consultation α) (answer : α → Answer) (output : α → Output) :
    (settle print c answer output).calls = c.calls := by
  unfold settle
  cases c.result <;> rfl

/-- Every action but a comparison with the archive goes without the services. -/
theorem perform_of_local {action : Action}
    (h : ∀ location m, action ≠ .compareWith location m) :
    (env.perform print span action).calls = [] ∧ ∀ services,
      (env.withServices services).perform print span action = env.perform print span action := by
  cases action with
  | compareWith location m => exact absurd rfl (h location m)
  | help => exact ⟨rfl, fun _ => rfl⟩
  | upload => exact ⟨rfl, fun _ => rfl⟩
  | clear => exact ⟨rfl, fun _ => rfl⟩
  | table => exact ⟨calls_settle .., fun _ => rfl⟩
  | measure m => exact ⟨calls_settle .., fun _ => rfl⟩
  | chart row first last => exact ⟨calls_settle .., fun _ => rfl⟩
  | compareBoth left right => exact ⟨calls_settle .., fun _ => rfl⟩

variable {q : Query}

theorem evaluate_of_local (h : ∀ location m, Action.ofQuery q ≠ .ok (.compareWith location m)) :
    (env.evaluate print q).calls = [] ∧ ∀ services,
      (env.withServices services).evaluate print q = env.evaluate print q := by
  cases haction : Action.ofQuery q with
  | error lack =>
    unfold evaluate
    rw [haction]
    exact ⟨rfl, fun _ => rfl⟩
  | ok action =>
    simp only [evaluate_of_action haction]
    exact perform_of_local fun location m heq => h location m (heq ▸ haction)

theorem calls_evaluate (h : Action.ofQuery q = .ok (.compareWith location m)) :
    (env.evaluate print q).calls = (env.compareWith q.span location m).calls := by
  rw [evaluate_of_action h]
  exact calls_settle ..

theorem exists_answer_iff (h : Measure.ofQuery q = .ok m) :
    (∃ answer, (env.evaluate print q).result = .ok answer) ↔ ∃ x, env.measure m = .ok x := by
  rw [evaluate_of_action (Action.ofQuery_of_measure h)]
  unfold perform settle Consultation.of
  cases hm : env.measure m <;> simp [hm]

/-- The query compares a measure with the archive at a location, and its sub-query, evaluated on
the dataset, has an answer. -/
structure Compares (env : Environment) (q : Query) (location : Location) (m : Measure) :
    Prop where
  action : Action.ofQuery q = .ok (.compareWith location m)
  answered : ∀ sub ∈ q.subQueries, ∃ answer, (env.evaluate false sub).result = .ok answer

theorem exists_subQuery (h : Action.ofQuery q = .ok (.compareWith location m)) :
    ∃ sub, q.subQueries = [sub] ∧ Measure.ofQuery sub = .ok m := by
  obtain ⟨sub, rest, hm, hrest, hsub⟩ :=
    List.forall₂_cons_right_iff.mp (forall₂_comparands h (List.cons_ne_nil _ _))
  obtain rfl := List.forall₂_nil_right_iff.mp hrest
  exact ⟨sub, hsub, hm⟩

theorem compares_iff (h : Action.ofQuery q = .ok (.compareWith location m))
    {location' : Location} {m' : Measure} :
    env.Compares q location' m' ↔
      (location' = location ∧ m' = m) ∧ ∃ x, env.measure m = .ok x := by
  obtain ⟨sub, hsub, hm⟩ := exists_subQuery h
  constructor
  · intro hcompares
    have hsame := Except.ok.inj (hcompares.action.symm.trans h)
    refine ⟨Action.compareWith.inj hsame, ?_⟩
    exact (exists_answer_iff hm).mp (hcompares.answered sub (by simp [hsub]))
  · intro hmeasured
    obtain ⟨⟨rfl, rfl⟩, hx⟩ := hmeasured
    refine ⟨h, fun s hs => ?_⟩
    rw [hsub, List.mem_singleton] at hs
    exact hs ▸ (exists_answer_iff hm).mpr hx

theorem not_compares (h : ∀ location m, Action.ofQuery q ≠ .ok (.compareWith location m)) :
    ¬ env.Compares q location m :=
  fun hcompares => h location m hcompares.action

theorem inOrder_evaluate (env : Environment) (print : Bool) (q : Query) :
    InOrder (env.evaluate print q).calls := by
  by_cases h : ∃ location m, Action.ofQuery q = .ok (.compareWith location m)
  · obtain ⟨location, m, haction⟩ := h
    rw [calls_evaluate haction]
    exact inOrder_compareWith
  · push Not at h
    rw [(evaluate_of_local h).1]
    exact inOrder_nil

theorem locate_mem_calls_evaluate {address : String} :
    .locate address ∈ (env.evaluate print q).calls ↔
      ∃ location m, env.Compares q location m ∧ location.address? = some address := by
  by_cases h : ∃ location m, Action.ofQuery q = .ok (.compareWith location m)
  · obtain ⟨location, m, haction⟩ := h
    simp [calls_evaluate haction, locate_mem_calls_compareWith, compares_iff haction, and_assoc]
  · push Not at h
    simp [(evaluate_of_local h).1, not_compares h]

theorem archive_mem_calls_evaluate {asked : Weather.ArchiveQuery} :
    .archive asked ∈ (env.evaluate print q).calls ↔
      ∃ location m coordinates first last, env.Compares q location m ∧
        env.place location = .ok coordinates ∧
        env.dataset.resolveDate m.firstDay = .ok first ∧
        env.dataset.resolveDate m.lastDay = .ok last ∧
        asked = ⟨coordinates, m.kind, m.row, first, last⟩ := by
  by_cases h : ∃ location m, Action.ofQuery q = .ok (.compareWith location m)
  · obtain ⟨location, m, haction⟩ := h
    simp [calls_evaluate haction, archive_mem_calls_compareWith, compares_iff haction, and_assoc]
  · push Not at h
    simp [(evaluate_of_local h).1, not_compares h]

/-- What the services would answer to other calls does not matter. -/
theorem evaluate_withServices (h : Answers services env (env.evaluate print q).calls) :
    (env.withServices services).evaluate print q = env.evaluate print q := by
  by_cases hcompares : ∃ location m, Action.ofQuery q = .ok (.compareWith location m)
  · obtain ⟨location, m, haction⟩ := hcompares
    rw [calls_evaluate haction] at h
    rw [evaluate_of_action haction, evaluate_of_action haction]
    simp only [perform, compareWith_withServices h]
  · push Not at hcompares
    exact (evaluate_of_local hcompares).2 services

/-- An evaluation asks the services at most once each and looks the location up first. It looks
one up exactly if the query compares with the archive, the location has an address, and the
sub-query has an answer; it asks the archive exactly if in addition the place is known and both
days can be named. The location is that of a point, of a zip code as it was typed or of a city
without its quotes. The sub-query itself calls nothing, and the evaluation depends on nothing that
the services would answer to other calls. -/
theorem evaluate_follows_protocol (env : Environment) (print : Bool) (q : Query) :
    InOrder (env.evaluate print q).calls ∧
      (∀ address, .locate address ∈ (env.evaluate print q).calls ↔
        ∃ location m, env.Compares q location m ∧ location.address? = some address) ∧
      (∀ asked, .archive asked ∈ (env.evaluate print q).calls ↔
        ∃ location m coordinates first last, env.Compares q location m ∧
          env.place location = .ok coordinates ∧
          env.dataset.resolveDate m.firstDay = .ok first ∧
          env.dataset.resolveDate m.lastDay = .ok last ∧
          asked = ⟨coordinates, m.kind, m.row, first, last⟩) ∧
      (∀ location m, Action.ofQuery q = .ok (.compareWith location m) →
        q.command = "compare" ∧ location.NamedBy q ∧
          ∃ sub, q.subQueries = [sub] ∧ Measure.ofQuery sub = .ok m ∧
            (env.evaluate false sub).calls = []) ∧
      (∀ table days nested line, Query.parse table days nested line = .ok q →
        ∀ a ∈ q.args, ∀ content, a.value = .text content →
          a.raw.toList = '"' :: (content.toList ++ ['"'])) ∧
      ∀ services, Answers services env (env.evaluate print q).calls →
        (env.withServices services).evaluate print q = env.evaluate print q := by
  refine ⟨inOrder_evaluate env print q, fun _ => locate_mem_calls_evaluate,
    fun _ => archive_mem_calls_evaluate, ?_, ?_, fun _ => evaluate_withServices⟩
  · intro location m haction
    obtain ⟨hcommand, hnamed⟩ := Action.of_compareWith haction
    obtain ⟨sub, hsub, hm⟩ := exists_subQuery haction
    exact ⟨hcommand, hnamed, sub, hsub, hm, (silent_of_measure hm).1⟩
  · intro table days nested line hq a ha content htext
    exact Query.raw_of_text hq ha htext

def connected : Environment := isolated.withServices ⟨fun _ => .ok ⟨39, -95⟩, fun _ => .ok 60⟩

/-- The zip code is looked up as it was typed, and the archive is asked about all days. -/
theorem calls_zip_comparison :
    let sub : Query := ⟨"max", none, [⟨"row", .row, .row "t", "`t`", ⟨22, 25⟩⟩], [], ⟨18, 25⟩⟩
    let q : Query := ⟨"compare", some "zip",
      [⟨"location type", .enum, .enum "zip", "zip", ⟨8, 11⟩⟩,
        ⟨"zip code", .int, .number 66213, "66213", ⟨12, 17⟩⟩], [sub], ⟨0, 25⟩⟩
    (connected.evaluate true q).calls = [.locate "66213",
      .archive ⟨⟨39, -95⟩, .max, "t", "2024-04-24", "2024-04-25"⟩] := by
  intro sub q
  let m : Measure := ⟨.max, "t", none, none, ⟨18, 25⟩⟩
  obtain ⟨⟨looked, asked, hcalls⟩, hlocate, harchive, -⟩ :=
    evaluate_follows_protocol connected true q
  have hcompares : connected.Compares q (.zip "66213") m := by
    refine ⟨rfl, fun s hs => ?_⟩
    obtain rfl := List.mem_singleton.mp hs
    exact ⟨_, rfl⟩
  have hlooked := (hlocate "66213").mpr ⟨_, m, hcompares, rfl⟩
  have hasked := (harchive _).mpr ⟨_, m, ⟨39, -95⟩, "2024-04-24", "2024-04-25", hcompares, rfl,
    by decide +kernel, by decide +kernel, rfl⟩
  rw [hcalls] at hlooked hasked ⊢
  obtain rfl : looked = some "66213" := by
    simpa using hlooked
  obtain rfl : asked = some _ := by
    simpa using hasked
  rfl

end Environment

end Almanac
