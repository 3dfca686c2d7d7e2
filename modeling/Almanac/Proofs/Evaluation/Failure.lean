import Almanac.Evaluation.Basic
import Almanac.Proofs.Evaluation.Action

/-!
What can still fail after a query of the built-in commands was read. The query asks for an action
whose dates can be looked up, so that it fails only when the dataset lacks what is asked for or
when a remote service does.
-/

namespace Almanac

def Location.address? : Location → Option String
  | .point _ => none
  | .zip code => some code
  | .city name => some name

/-- The failure of an action, asked for by a query at the given place, that says what is wrong with
the dataset or with a remote service. -/
inductive Failure.Justified (env : Environment) (span : Span) : Action → Failure → Prop
  | measure {m : Measure} {error : DatasetError}
    (herror : error.Justified env.dataset m.row m.first m.last) :
    Justified env span (.measure m) (.dataset error m.span)
  | chart {row : String} {first last : Option DateToken} {error : DatasetError}
    (herror : error.Justified env.dataset row first last) :
    Justified env span (.chart row first last) (.dataset error span)
  | compared {location : Location} {m : Measure} {error : DatasetError}
    (herror : error.Justified env.dataset m.row m.first m.last) :
    Justified env span (.compareWith location m) (.dataset error m.span)
  | unlocated {location : Location} {m : Measure} {address reason : String}
    (haddress : location.address? = some address)
    (hreason : env.services.locate address = .error reason) :
    Justified env span (.compareWith location m) (.unlocated address reason span)
  | unarchived {location : Location} {m : Measure} {place : Coordinates}
    {first last reason : String}
    (hplace : (env.locate span location).result = .ok place)
    (hdays : env.dataset.archiveDays m = .ok (first, last))
    (hreason : env.services.archive ⟨place, m.kind, m.row, first, last⟩ = .error reason) :
    Justified env span (.compareWith location m) (.unarchived reason span)
  | left {left right : Measure} {error : DatasetError}
    (herror : error.Justified env.dataset left.row left.first left.last) :
    Justified env span (.compareBoth left right) (.dataset error left.span)
  | right {left right : Measure} {error : DatasetError}
    (herror : error.Justified env.dataset right.row right.first right.last) :
    Justified env span (.compareBoth left right) (.dataset error right.span)

/-- Failures of the dataset have a code of their own, and so have those of the services. -/
theorem Failure.Justified.id_eq {env : Environment} {span : Span} {action : Action}
    {failure : Failure} (h : failure.Justified env span action) :
    (∃ error span, failure = .dataset error span) ∧ failure.toDiagnostic.id = "WQ2002" ∨
      (∀ error span, failure ≠ .dataset error span) ∧ failure.toDiagnostic.id = "WQ2001" := by
  cases h with
  | unlocated _ _ => exact .inr ⟨nofun, rfl⟩
  | unarchived _ _ _ => exact .inr ⟨nofun, rfl⟩
  | _ => exact .inl ⟨⟨_, _, rfl⟩, rfl⟩

namespace Consultation

variable {α β : Type} {c : Consultation α} {next : α → Consultation β}

theorem andThen_eq_error_iff {failure : Failure} :
    (c.andThen next).result = .error failure ↔
      c.result = .error failure ∨
        ∃ value, c.result = .ok value ∧ (next value).result = .error failure := by
  unfold andThen
  cases c.result <;> simp

end Consultation

namespace Environment

variable {env : Environment} {failure : Failure} {m : Measure} {span : Span}

theorem measure_eq_error (hds : env.dataset.WellFormed) (hfew : env.dataset.length < placeLimit)
    (hm : m.Sound env.dataset.length) (h : env.measure m = .error failure) :
    ∃ error : DatasetError, failure = .dataset error m.span ∧
      error.Justified env.dataset m.row m.first m.last := by
  obtain ⟨e, he, rfl⟩ := mapError_eq_error_iff.mp h
  exact ⟨e, rfl, Dataset.aggregate_eq_error hds hfew hm.first hm.last hm.single he⟩

theorem locate_eq_error {location : Location}
    (h : (env.locate span location).result = .error failure) :
    failure.Justified env span (.compareWith location m) := by
  have hfind (address : String) (haddress : location.address? = some address)
      (h : (env.find span address).result = .error failure) :
      failure.Justified env span (.compareWith location m) := by
    obtain ⟨reason, hreason, rfl⟩ := mapError_eq_error_iff.mp h
    exact .unlocated haddress hreason
  cases location with
  | point place => cases h
  | zip code => exact hfind code rfl h
  | city name => exact hfind name rfl h

/-- The archive can be asked about the days of a measure. -/
theorem exists_archiveDays (hfew : env.dataset.length < placeLimit)
    (hdays : 0 < env.dataset.length) (hm : m.Sound env.dataset.length) :
    ∃ days, env.dataset.archiveDays m = .ok days := by
  have hstart : (m.first.getD (.index 0)).Bounded env.dataset.length := by
    cases hfirst : m.first with
    | some token => exact hm.first token hfirst
    | none =>
      show -(env.dataset.length : Int) ≤ 0 ∧ (0 : Int) < env.dataset.length
      omega
  have hstop : (m.last.getD (.index (-1))).Bounded env.dataset.length := by
    cases hlast : m.last with
    | some token => exact hm.last token hlast
    | none =>
      show -(env.dataset.length : Int) ≤ -1 ∧ (-1 : Int) < env.dataset.length
      omega
  obtain ⟨first, hfirst⟩ := Dataset.exists_resolveDate hfew hstart
  obtain ⟨last, hlast⟩ := Dataset.exists_resolveDate hfew hstop
  unfold Dataset.archiveDays
  cases m.kind with
  | value => exact ⟨(first, first), by simp [hfirst, bind, Except.bind, pure, Except.pure]⟩
  | min => exact ⟨(first, last), by simp [hfirst, hlast, bind, Except.bind, pure, Except.pure]⟩
  | max => exact ⟨(first, last), by simp [hfirst, hlast, bind, Except.bind, pure, Except.pure]⟩
  | avg => exact ⟨(first, last), by simp [hfirst, hlast, bind, Except.bind, pure, Except.pure]⟩

theorem compareWith_eq_error (hds : env.dataset.WellFormed)
    (hfew : env.dataset.length < placeLimit) (hm : m.Sound env.dataset.length)
    {location : Location} (h : (env.compareWith span location m).result = .error failure) :
    failure.Justified env span (.compareWith location m) := by
  unfold compareWith at h
  simp only [Consultation.andThen_eq_error_iff] at h
  rcases h with
    hmeasure | ⟨value, hvalue, hlocate | ⟨place, hplace, hdays | ⟨days, hasked, harchive⟩⟩⟩
  · obtain ⟨error, rfl, herror⟩ := measure_eq_error hds hfew hm hmeasure
    exact .compared herror
  · exact locate_eq_error hlocate
  · -- There are days, since some of them were measured.
    have hmeasured := mapError_eq_ok_iff.mp hvalue
    have hpos := Dataset.length_pos_of_aggregate hm.single hmeasured
    obtain ⟨days, hok⟩ := exists_archiveDays hfew hpos hm
    obtain ⟨e, he, _⟩ := mapError_eq_error_iff.mp hdays
    rw [hok] at he
    cases he
  · rcases harchive with hrefused | ⟨archived, _, hdone⟩
    · obtain ⟨reason, hreason, rfl⟩ := mapError_eq_error_iff.mp hrefused
      exact .unarchived hplace (mapError_eq_ok_iff.mp hasked) hreason
    · cases hdone

theorem compareBoth_eq_error (hds : env.dataset.WellFormed)
    (hfew : env.dataset.length < placeLimit) {left right : Measure}
    (hleft : left.Sound env.dataset.length) (hright : right.Sound env.dataset.length)
    (h : env.compareBoth left right = .error failure) :
    failure.Justified env span (.compareBoth left right) := by
  simp only [compareBoth, bind_eq_error_iff] at h
  rcases h with hfirst | ⟨value₁, _, hsecond | ⟨value₂, _, hdone⟩⟩
  · obtain ⟨error, rfl, herror⟩ := measure_eq_error hds hfew hleft hfirst
    exact .left herror
  · obtain ⟨error, rfl, herror⟩ := measure_eq_error hds hfew hright hsecond
    exact .right herror
  · cases hdone

/-- A failure is that of the consultation, and nothing was shown before it. -/
theorem settle_eq_error {α : Type} {print : Bool} {c : Consultation α} {answer : α → Answer}
    {output : α → Output} (h : (settle print c answer output).result = .error failure) :
    c.result = .error failure ∧ (settle print c answer output).shown = [] := by
  unfold settle at h ⊢
  cases hc : c.result with
  | error e =>
    simp only [hc, Except.error.injEq] at h ⊢
    exact ⟨h, trivial⟩
  | ok value => simp [hc] at h

/-- An action that asks for what may be asked for fails only for a reason that it gives. -/
theorem perform_eq_error (hds : env.dataset.WellFormed) (hfew : env.dataset.length < placeLimit)
    {print : Bool} {action : Action} (haction : action.Sound env.dataset.length)
    (h : (env.perform print span action).result = .error failure) :
    failure.Justified env span action ∧ (env.perform print span action).shown = [] := by
  cases action with
  | help => cases h
  | upload => cases h
  | clear => cases h
  | table => cases h
  | measure m =>
    obtain ⟨hfailure, hshown⟩ := settle_eq_error h
    obtain ⟨error, rfl, herror⟩ := measure_eq_error hds hfew haction hfailure
    exact ⟨.measure herror, hshown⟩
  | chart row first last =>
    obtain ⟨hfailure, hshown⟩ := settle_eq_error h
    obtain ⟨e, he, rfl⟩ := mapError_eq_error_iff.mp hfailure
    have hhistogram := map_eq_error_iff.mp he
    exact ⟨.chart (Dataset.histogram_eq_error hfew haction.1 haction.2 hhistogram), hshown⟩
  | compareWith location m =>
    obtain ⟨hfailure, hshown⟩ := settle_eq_error h
    exact ⟨compareWith_eq_error hds hfew haction hfailure, hshown⟩
  | compareBoth left right =>
    obtain ⟨hfailure, hshown⟩ := settle_eq_error h
    exact ⟨compareBoth_eq_error hds hfew haction.1 haction.2 hfailure, hshown⟩

theorem evaluate_of_action {q : Query} {action : Action} (h : Action.ofQuery q = .ok action)
    (print : Bool) : env.evaluate print q = env.perform print q.span action := by
  unfold evaluate
  rw [h]

/-- Evaluating a query for a measure gives a number if it gives anything. -/
theorem scalar_of_measure {q : Query} (h : Measure.ofQuery q = .ok m) {print : Bool}
    {answer : Answer} (hanswer : (env.evaluate print q).result = .ok answer) :
    ∃ x, answer = .scalar x := by
  rw [evaluate_of_action (Action.ofQuery_of_measure h)] at hanswer
  simp only [perform, settle, Consultation.of] at hanswer
  split at hanswer
  · cases hanswer
  · exact ⟨_, (Except.ok.inj hanswer).symm⟩

theorem execute_eq_none {q : Query} {echoed line : String}
    (hq : Query.parse env.table env.dataset.length false line = .ok q)
    (h : (env.execute echoed line).answer = none) :
    ∃ failure, (env.evaluate true q).result = .error failure ∧
      (env.execute echoed line).shown =
        (env.evaluate true q).shown ++ [.error echoed failure.toDiagnostic] := by
  simp only [execute, hq] at h ⊢
  cases hresult : (env.evaluate true q).result with
  | ok answer => simp [hresult] at h
  | error failure => exact ⟨failure, rfl, rfl⟩

/-- What is valid can be carried out. A query of the built-in commands that is read for the days
of a well-formed dataset is never found to lack a part, and its sub-queries yield numbers only.
It can fail only because the dataset has no such row, date, day or number, or because of a remote
service, and then the failure is all that is shown. No list in memory has `placeLimit` days. -/
theorem justified_of_isValid (env : Environment) (htable : env.table = CommandTable.builtin)
    (hds : env.dataset.WellFormed) (hfew : env.dataset.length < placeLimit) {line : String}
    (hvalid : Query.isValid env.table env.dataset.length false line = true) :
    ∃ q action, Query.parse env.table env.dataset.length false line = .ok q ∧
      Action.ofQuery q = .ok action ∧
      (∀ print, ∀ failure : Failure, (env.evaluate print q).result = .error failure →
        failure.Justified env q.span action ∧
          ((∃ error span, failure = .dataset error span) ∧
              failure.toDiagnostic.id = "WQ2002" ∨
            (∀ error span, failure ≠ .dataset error span) ∧
              failure.toDiagnostic.id = "WQ2001")) ∧
      (∀ s ∈ q.subQueries, ∀ print answer, (env.evaluate print s).result = .ok answer →
        ∃ x, answer = .scalar x) ∧
      ∀ echoed, (env.execute echoed line).answer = none →
        ∃ failure : Failure, failure.Justified env q.span action ∧
          (env.execute echoed line).shown = [.error echoed failure.toDiagnostic] := by
  obtain ⟨q, hq⟩ := Query.isValid_iff.mp hvalid
  have hread := hq
  rw [htable] at hread
  obtain ⟨⟨action, haction, hsound⟩, hsubs⟩ := Action.exists_of_ofTokens hread
  have hperform {print : Bool} {failure : Failure}
      (h : (env.evaluate print q).result = .error failure) :
      failure.Justified env q.span action ∧ (env.evaluate print q).shown = [] := by
    rw [evaluate_of_action haction] at h ⊢
    exact perform_eq_error hds hfew hsound h
  refine ⟨q, action, hq, haction, ?_, ?_, ?_⟩
  · intro print failure h
    obtain ⟨hjustified, _⟩ := hperform h
    exact ⟨hjustified, hjustified.id_eq⟩
  · intro s hs print answer hanswer
    obtain ⟨m, hm, _⟩ := hsubs s hs
    exact scalar_of_measure hm hanswer
  · intro echoed hnone
    obtain ⟨failure, hfailure, hshown⟩ := execute_eq_none hq hnone
    obtain ⟨hjustified, hsilent⟩ := hperform hfailure
    exact ⟨failure, hjustified, by rw [hshown, hsilent, List.nil_append]⟩

def isolated : Environment where
  table := CommandTable.builtin
  dataset := ⟨[⟨"date", ["2024-04-24", "2024-04-25"]⟩, ⟨"t", ["70", "75"]⟩]⟩
  services := ⟨fun _ => .error "offline", fun _ => .error "offline"⟩

theorem isolated_wellFormed : isolated.dataset.WellFormed where
  distinct := by decide +kernel
  dated := by decide +kernel
  aligned := by decide +kernel
  iso := by decide +kernel

theorem justified_of_absent_date :
    Query.isValid isolated.table isolated.dataset.length false "max `t` 0 2024-04-26" = true ∧
      (isolated.execute "max" "max `t` 0 2024-04-26").answer = none ∧
      ∃ failure : Failure, failure.Justified isolated ⟨0, 20⟩
          (.measure ⟨.max, "t", some (.index 0), some (.iso "2024-04-26"), ⟨0, 20⟩⟩) ∧
        (isolated.execute "max" "max `t` 0 2024-04-26").shown =
          [.error "max" failure.toDiagnostic] := by
  have hq : Query.parse isolated.table isolated.dataset.length false "max `t` 0 2024-04-26" =
      .ok ⟨"max", none, [⟨"row", .row, .row "t", "`t`", ⟨4, 7⟩⟩,
        ⟨"start", .date, .date (.index 0), "0", ⟨8, 9⟩⟩,
        ⟨"end", .date, .date (.iso "2024-04-26"), "2024-04-26", ⟨10, 20⟩⟩], [], ⟨0, 20⟩⟩ := by
    have htokens : tokenize "max `t` 0 2024-04-26" =
        [⟨"max", 0⟩, ⟨"`t`", 4⟩, ⟨"0", 8⟩, ⟨"2024-04-26", 10⟩] := by
      decide +kernel
    unfold Query.parse
    rw [htokens]
    exact Query.ofTokens_cons_eq_ok_iff.mpr ⟨CommandTable.builtin.commands[4], _, [], [],
      ⟨rfl, by decide, rfl, rfl⟩, .nil, rfl⟩
  have hvalid : Query.isValid isolated.table isolated.dataset.length false
      "max `t` 0 2024-04-26" = true := by
    unfold Query.isValid
    rw [hq]
  have hnone : (isolated.execute "max" "max `t` 0 2024-04-26").answer = none := by
    unfold execute
    rw [hq]
    rfl
  have hfew : isolated.dataset.length < placeLimit := by decide +kernel
  obtain ⟨q, action, hread, haction, _, _, hexecute⟩ :=
    justified_of_isValid isolated rfl isolated_wellFormed hfew hvalid
  obtain rfl := Except.ok.inj (hq.symm.trans hread)
  obtain rfl := Except.ok.inj haction
  exact ⟨hvalid, hnone, hexecute "max" hnone⟩

end Environment

end Almanac
