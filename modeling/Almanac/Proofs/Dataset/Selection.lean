import Almanac.Dataset.Selection
import Almanac.Proofs.Traversal

/-!
Which days a range selects, and what can be wrong with a request for a row over a range. Where
the places that are asked for lie among the days, a request fails for four reasons only: there is
no such row, a date is none of the days, the range has no days, or one of its values is not a
number.
-/

namespace Almanac

theorem relativeIndex_eq_some_iff {place : Int} {count k : Nat} :
    relativeIndex place count = some k ↔
      count < placeLimit ∧ k < count ∧ ((k : Int) = place ∨ (k : Int) = count + place) := by
  simp only [relativeIndex, Bool.and_eq_true, decide_eq_true_eq, Option.ite_none_right_eq_some,
    Option.some.injEq]
  split <;> omega

namespace DateToken

def Bounded (days : Nat) : DateToken → Prop
  | index place => -(days : Int) ≤ place ∧ place < days
  | iso date => isIsoDate date = true

theorem position?_lt {dates : List String} {token : DateToken} {i : Nat}
    (h : token.position? dates = some i) : i < dates.length := by
  cases token with
  | index place => exact (relativeIndex_eq_some_iff.mp h).2.1
  | iso date => exact (List.findIdx?_eq_some_iff_getElem.mp h).1

/-- Only a date can be missing from among the days. -/
theorem position?_eq_none {dates : List String} {token : DateToken}
    (hbounded : token.Bounded dates.length) (hfew : dates.length < placeLimit)
    (h : token.position? dates = none) :
    ∃ date, token = .iso date ∧ isIsoDate date = true ∧ date ∉ dates := by
  cases token with
  | index place =>
    obtain ⟨hlow, hhigh⟩ := hbounded
    have hsome : ∃ k, relativeIndex place dates.length = some k := by
      by_cases hplace : place < 0
      · exact ⟨(dates.length + place).toNat, relativeIndex_eq_some_iff.mpr (by omega)⟩
      · exact ⟨place.toNat, relativeIndex_eq_some_iff.mpr (by omega)⟩
    obtain ⟨k, hk⟩ := hsome
    rw [position?, hk] at h
    cases h
  | iso date =>
    refine ⟨date, rfl, hbounded, fun hmem => ?_⟩
    simpa using List.findIdx?_eq_none_iff.mp h date hmem

end DateToken

namespace Dataset

variable {ds : Dataset} {row : String} {first last : Option DateToken} {e : DatasetError}

theorem column?_eq_none_iff {name : String} : ds.column? name = none ↔ name ∉ ds.columnNames := by
  simp [column?, columnNames]

theorem of_column?_eq_some {name : String} {values : List String}
    (h : ds.column? name = some values) :
    ∃ c ∈ ds.columns, c.name = name ∧ c.values = values := by
  obtain ⟨c, hfind, hvalues⟩ := Option.map_eq_some_iff.mp h
  have hname := List.find?_some hfind
  exact ⟨c, List.mem_of_find?_eq_some hfind, by simpa using hname, hvalues⟩

theorem row?_eq_none_iff : ds.row? row = none ↔ row ∉ ds.rows := by
  rw [row?, rows, List.mem_filter]
  by_cases hrow : row = dateColumn
  · simp [hrow]
  · simp [hrow, column?_eq_none_iff]

theorem column?_of_row? {values : List String} (h : ds.row? row = some values) :
    ds.column? row = some values := by
  rw [row?] at h
  split at h
  · cases h
  · exact h

theorem WellFormed.length_of_row? (hds : ds.WellFormed) {values : List String}
    (h : ds.row? row = some values) : values.length = ds.length := by
  obtain ⟨c, hc, _, rfl⟩ := of_column?_eq_some (column?_of_row? h)
  exact hds.aligned c hc

theorem dateIndex_eq_ok_iff {token : DateToken} {i : Nat} :
    ds.dateIndex token = .ok i ↔ token.position? ds.dates = some i := by
  cases hposition : token.position? ds.dates with
  | some position => cases token <;> simp [dateIndex, hposition]
  | none => cases token <;> simp [dateIndex, hposition]

/-- A date that is looked for in vain is not among the dates. -/
theorem dateIndex_eq_error {token : DateToken} (hbounded : token.Bounded ds.length)
    (hfew : ds.length < placeLimit) (h : ds.dateIndex token = .error e) :
    ∃ date, token = .iso date ∧ isIsoDate date = true ∧ date ∉ ds.dates ∧
      e = .dateNotFound date := by
  have hnone : token.position? ds.dates = none := by
    by_contra hsome
    obtain ⟨i, hi⟩ := Option.ne_none_iff_exists'.mp hsome
    rw [dateIndex_eq_ok_iff.mpr hi] at h
    cases h
  obtain ⟨date, rfl, hiso, hmissing⟩ := DateToken.position?_eq_none hbounded hfew hnone
  refine ⟨date, rfl, hiso, hmissing, ?_⟩
  rw [dateIndex, hnone] at h
  exact (Except.error.inj h).symm

/-- The day lies between the first and the last day that are given. -/
def Within (ds : Dataset) (first last : Option DateToken) (day : Nat) : Prop :=
  day < ds.length ∧
    (∀ token ∈ first, ∃ i, token.position? ds.dates = some i ∧ i ≤ day) ∧
    ∀ token ∈ last, ∃ j, token.position? ds.dates = some j ∧ day ≤ j

def rangeStart (ds : Dataset) (first : Option DateToken) : Except DatasetError Nat :=
  match first with
  | some token => ds.dateIndex token
  | none => .ok 0

def rangeStop (ds : Dataset) (last : Option DateToken) : Except DatasetError Nat :=
  match last with
  | some token => (ds.dateIndex token).map (· + 1)
  | none => .ok ds.length

theorem range_eq : ds.range first last = (do
    let start ← ds.rangeStart first
    let stop ← ds.rangeStop last
    if stop ≤ start then
      .error (.emptyRange ((first.map DateToken.display).getD "first")
        ((last.map DateToken.display).getD "last"))
    else pure (start, stop)) := by
  cases first <;> cases last <;> rfl

theorem rangeStart_eq_ok {start : Nat} (h : ds.rangeStart first = .ok start) :
    start ≤ ds.length ∧ ∀ day,
      (∀ token ∈ first, ∃ i, token.position? ds.dates = some i ∧ i ≤ day) ↔ start ≤ day := by
  cases first with
  | none =>
    obtain rfl := Except.ok.inj h
    simp
  | some token =>
    have hposition := dateIndex_eq_ok_iff.mp h
    refine ⟨Nat.le_of_lt (DateToken.position?_lt hposition), fun day => ?_⟩
    simp [hposition]

theorem rangeStop_eq_ok {stop : Nat} (h : ds.rangeStop last = .ok stop) :
    stop ≤ ds.length ∧ ∀ day, day < ds.length →
      ((∀ token ∈ last, ∃ j, token.position? ds.dates = some j ∧ day ≤ j) ↔ day < stop) := by
  cases last with
  | none =>
    obtain rfl := Except.ok.inj h
    simp
  | some token =>
    obtain ⟨j, hj, rfl⟩ := map_eq_ok_iff.mp h
    have hposition := dateIndex_eq_ok_iff.mp hj
    refine ⟨DateToken.position?_lt hposition, fun day _ => ?_⟩
    simp only [Option.mem_some_iff, forall_eq', hposition, Option.some.injEq, exists_eq_left']
    omega

/-- A range has days, and they are those between its first and its last one. -/
theorem range_eq_ok {days : Nat × Nat} (h : ds.range first last = .ok days) :
    days.1 < days.2 ∧ days.2 ≤ ds.length ∧
      ∀ day, ds.Within first last day ↔ days.1 ≤ day ∧ day < days.2 := by
  simp only [range_eq, bind_eq_ok_iff] at h
  obtain ⟨start, hstart, stop, hstop, hdays⟩ := h
  obtain ⟨_, hfrom⟩ := rangeStart_eq_ok hstart
  obtain ⟨hle, huntil⟩ := rangeStop_eq_ok hstop
  split at hdays
  · cases hdays
  · rename_i hlt
    obtain rfl := Except.ok.inj hdays
    refine ⟨Nat.lt_of_not_le hlt, hle, fun day => ?_⟩
    rw [Within, hfrom]
    constructor
    · intro hwithin
      obtain ⟨hday, hge, hto⟩ := hwithin
      exact ⟨hge, (huntil day hday).mp hto⟩
    · intro hbounds
      obtain ⟨hge, hday⟩ := hbounds
      have hin : day < ds.length := Nat.lt_of_lt_of_le hday hle
      exact ⟨hin, hge, (huntil day hin).mpr hday⟩

end Dataset

/-- What an error says about a request for a row over a range of days is true. -/
inductive DatasetError.Justified (ds : Dataset) (row : String) (first last : Option DateToken) :
    DatasetError → Prop
  | unknownRow (habsent : row ∉ ds.rows) : Justified ds row first last (.unknownRow row)
  | dateNotFound {date : String} (hasked : .iso date ∈ first ∨ .iso date ∈ last)
    (hiso : isIsoDate date = true) (habsent : date ∉ ds.dates) :
    Justified ds row first last (.dateNotFound date)
  | emptyRange (hnone : ∀ day, ¬ ds.Within first last day) :
    Justified ds row first last
      (.emptyRange ((first.map DateToken.display).getD "first")
        ((last.map DateToken.display).getD "last"))
  | notNumeric {day : Nat} {date value : String} {values : List String}
    (hday : ds.Within first last day) (hdate : ds.dates[day]? = some date)
    (hrow : ds.row? row = some values) (hvalue : values[day]? = some value)
    (htext : Decimal.readFinite? value.toList = none) :
    Justified ds row first last (.notNumeric row date value)

namespace Dataset

variable {ds : Dataset} {row : String} {first last : Option DateToken} {e : DatasetError}

theorem range_eq_error (hfew : ds.length < placeLimit)
    (hfirst : ∀ token ∈ first, token.Bounded ds.length)
    (hlast : ∀ token ∈ last, token.Bounded ds.length)
    (h : ds.range first last = .error e) : e.Justified ds row first last := by
  simp only [range_eq, bind_eq_error_iff] at h
  rcases h with hstart | ⟨start, hstart, hstop | ⟨stop, hstop, hempty⟩⟩
  · cases first with
    | none => cases hstart
    | some token =>
      obtain ⟨date, rfl, hiso, habsent, rfl⟩ := dateIndex_eq_error (hfirst token rfl) hfew hstart
      exact .dateNotFound (.inl rfl) hiso habsent
  · cases last with
    | none => cases hstop
    | some token =>
      obtain ⟨date, rfl, hiso, habsent, rfl⟩ :=
        dateIndex_eq_error (hlast token rfl) hfew (map_eq_error_iff.mp hstop)
      exact .dateNotFound (.inr rfl) hiso habsent
  · split at hempty
    · rename_i hle
      obtain rfl := Except.error.inj hempty
      refine .emptyRange fun day hday => ?_
      obtain ⟨hin, hfrom, huntil⟩ := hday
      have hge := ((rangeStart_eq_ok hstart).2 day).mp hfrom
      have hlt := ((rangeStop_eq_ok hstop).2 day hin).mp huntil
      omega
    · cases hempty

theorem slice_zip {α β : Type} (as : List α) (bs : List β) (days : Nat × Nat) :
    (slice as days).zip (slice bs days) = slice (as.zip bs) days := by
  simp only [slice, List.zip, List.drop_zipWith, List.take_zipWith]

theorem length_slice {α : Type} {values : List α} {days : Nat × Nat}
    (h : days.2 ≤ values.length) : (slice values days).length = days.2 - days.1 := by
  rw [slice, List.length_take, List.length_drop]
  omega

/-- A slice within a list reads it at consecutive positions. -/
theorem slice_eq_map {α : Type} {values : List α} {days : Nat × Nat} (fallback : α)
    (h : days.2 ≤ values.length) :
    slice values days =
      (List.range' days.1 (days.2 - days.1)).map fun day => values.getD day fallback := by
  refine List.ext_getElem (by simp [length_slice h]) fun i hi _ => ?_
  have hlt : days.1 + i < values.length := by
    rw [length_slice h] at hi
    omega
  simp [slice, List.getElem?_eq_getElem hlt]

theorem exists_of_mem_slice {α : Type} {values : List α} {days : Nat × Nat} {value : α}
    (h : value ∈ slice values days) :
    ∃ day, (days.1 ≤ day ∧ day < days.2) ∧ values[day]? = some value := by
  obtain ⟨i, hi⟩ := List.getElem?_of_mem h
  have hlt : i < days.2 - days.1 := by
    obtain ⟨hlength, _⟩ := List.getElem?_eq_some_iff.mp hi
    rw [slice, List.length_take] at hlength
    omega
  rw [slice, List.getElem?_take_of_lt hlt, List.getElem?_drop] at hi
  exact ⟨days.1 + i, by omega, hi⟩

/-- The values of a row fail to be numbers where there is no row or one of them is no number. -/
theorem numbers_eq_error {days : Nat × Nat}
    (hdays : ∀ day, days.1 ≤ day → day < days.2 → ds.Within first last day)
    (h : ds.numbers row days = .error e) : e.Justified ds row first last := by
  rw [numbers] at h
  split at h
  · rename_i hrow
    obtain rfl := Except.error.inj h
    exact .unknownRow (row?_eq_none_iff.mp hrow)
  · rename_i values hrow
    obtain ⟨item, hitem, hread⟩ := exists_of_mapM_eq_error h
    rw [slice_zip] at hitem
    obtain ⟨day, ⟨hge, hlt⟩, hat⟩ := exists_of_mem_slice hitem
    obtain ⟨hdate, hvalue⟩ := List.getElem?_zip_eq_some.mp hat
    rw [readNumber] at hread
    split at hread
    · cases hread
    · rename_i htext
      obtain rfl := Except.error.inj hread
      exact .notNumeric (hdays day hge hlt) hdate hrow hvalue htext

theorem length_of_numbers (hds : ds.WellFormed) {days : Nat × Nat} (hin : days.2 ≤ ds.length)
    {values : List Float} (h : ds.numbers row days = .ok values) :
    values.length = days.2 - days.1 := by
  rw [numbers] at h
  split at h
  · cases h
  · rename_i texts hrow
    have hdates : days.2 ≤ ds.dates.length := hin
    have htexts : days.2 ≤ texts.length := (hds.length_of_row? hrow) ▸ hin
    have hlength := (mapM_eq_ok_iff.mp h).length_eq
    rw [List.length_zip, length_slice hdates, length_slice htexts, Nat.min_self] at hlength
    exact hlength.symm

/-- The days of an aggregate are among those of its range; a single value has no last day. -/
theorem aggregateDays_eq_ok {kind : Aggregate} (hkind : kind = .value → last = none)
    {days : Nat × Nat} (h : ds.aggregateDays kind first last = .ok days) :
    days.1 < days.2 ∧ days.2 ≤ ds.length ∧
      ∀ day, days.1 ≤ day → day < days.2 → ds.Within first last day := by
  have hrange (kind : Aggregate) (hrange : ds.range first last = .ok days) :
      days.1 < days.2 ∧ days.2 ≤ ds.length ∧
        ∀ day, days.1 ≤ day → day < days.2 → ds.Within first last day := by
    obtain ⟨hlt, hle, hwithin⟩ := range_eq_ok hrange
    exact ⟨hlt, hle, fun day hge hday => (hwithin day).mpr ⟨hge, hday⟩⟩
  cases kind with
  | value =>
    obtain rfl := hkind rfl
    obtain ⟨whole, hwhole, rfl⟩ := map_eq_ok_iff.mp h
    obtain ⟨hlt, hle, hwithin⟩ := range_eq_ok hwhole
    refine ⟨Nat.lt_succ_self _, by omega, fun day hge hday => (hwithin day).mpr ?_⟩
    simp only at hge hday
    omega
  | min => exact hrange .min h
  | max => exact hrange .max h
  | avg => exact hrange .avg h

theorem aggregateDays_eq_error {kind : Aggregate} (hkind : kind = .value → last = none)
    (hfew : ds.length < placeLimit) (hfirst : ∀ token ∈ first, token.Bounded ds.length)
    (hlast : ∀ token ∈ last, token.Bounded ds.length)
    (h : ds.aggregateDays kind first last = .error e) : e.Justified ds row first last := by
  cases kind with
  | value =>
    obtain rfl := hkind rfl
    exact range_eq_error hfew hfirst hlast (map_eq_error_iff.mp h)
  | min => exact range_eq_error hfew hfirst hlast h
  | max => exact range_eq_error hfew hfirst hlast h
  | avg => exact range_eq_error hfew hfirst hlast h

theorem reduce?_eq_none_iff {kind : Aggregate} {values : List Float} :
    kind.reduce? values = none ↔ values = [] := by
  cases values <;> simp [Aggregate.reduce?]

/-- The values of some days can be reduced. -/
theorem WellFormed.exists_reduce? (hds : ds.WellFormed) {days : Nat × Nat}
    (hlt : days.1 < days.2) (hin : days.2 ≤ ds.length) {values : List Float}
    (h : ds.numbers row days = .ok values) (kind : Aggregate) :
    ∃ x, kind.reduce? values = some x := by
  refine Option.ne_none_iff_exists'.mp (mt reduce?_eq_none_iff.mp ?_)
  rintro rfl
  have hlength := length_of_numbers hds hin h
  rw [List.length_nil] at hlength
  omega

theorem length_pos_of_aggregate {kind : Aggregate} (hkind : kind = .value → last = none)
    {value : Float} (h : ds.aggregate kind row first last = .ok value) : 0 < ds.length := by
  simp only [aggregate, bind_eq_ok_iff] at h
  obtain ⟨days, hdays, _⟩ := h
  obtain ⟨hlt, hle, _⟩ := aggregateDays_eq_ok hkind hdays
  omega

/-- An aggregate over days that there may be fails only for the reasons that its error gives. -/
theorem aggregate_eq_error (hds : ds.WellFormed) (hfew : ds.length < placeLimit)
    (hfirst : ∀ token ∈ first, token.Bounded ds.length)
    (hlast : ∀ token ∈ last, token.Bounded ds.length) {kind : Aggregate}
    (hkind : kind = .value → last = none)
    (h : ds.aggregate kind row first last = .error e) : e.Justified ds row first last := by
  simp only [aggregate, bind_eq_error_iff] at h
  rcases h with hrange | ⟨days, hdays, hnumbers | ⟨values, hvalues, hreduce⟩⟩
  · exact aggregateDays_eq_error hkind hfew hfirst hlast hrange
  · exact numbers_eq_error (aggregateDays_eq_ok hkind hdays).2.2 hnumbers
  · obtain ⟨hlt, hle, _⟩ := aggregateDays_eq_ok hkind hdays
    obtain ⟨x, hx⟩ := hds.exists_reduce? hlt hle hvalues kind
    rw [hx] at hreduce
    cases hreduce

theorem histogram_eq_error (hfew : ds.length < placeLimit)
    (hfirst : ∀ token ∈ first, token.Bounded ds.length)
    (hlast : ∀ token ∈ last, token.Bounded ds.length)
    (h : ds.histogram row first last = .error e) : e.Justified ds row first last := by
  simp only [histogram, bind_eq_error_iff] at h
  rcases h with hrange | ⟨days, hdays, hnumbers | ⟨values, _, hdone⟩⟩
  · exact range_eq_error hfew hfirst hlast hrange
  · refine numbers_eq_error (fun day hge hlt => ?_) hnumbers
    exact ((range_eq_ok hdays).2.2 day).mpr ⟨hge, hlt⟩
  · cases hdone

/-- A date can be found on some day of the dataset, or it is given in its ISO form. -/
theorem exists_resolveDate (hfew : ds.length < placeLimit) {token : DateToken}
    (hbounded : token.Bounded ds.length) : ∃ date, ds.resolveDate token = .ok date := by
  cases token with
  | iso date => exact ⟨date, rfl⟩
  | index place =>
    rw [resolveDate]
    cases hplace : ds.dateIndex (.index place) with
    | ok position => exact ⟨_, rfl⟩
    | error e =>
      obtain ⟨date, htoken, _⟩ := dateIndex_eq_error hbounded hfew hplace
      cases htoken

/-! The numbers of a row are finite -/

theorem isFinite_of_numbers {days : Nat × Nat} {values : List Float}
    (h : ds.numbers row days = .ok values) : ∀ x ∈ values, x.isFinite = true := by
  rw [numbers] at h
  split at h
  · cases h
  · intro x hx
    obtain ⟨item, _, hread⟩ := exists_mem_of_forall₂ (mapM_eq_ok_iff.mp h) hx
    rw [readNumber] at hread
    split at hread
    · rename_i found hfound
      obtain rfl := Except.ok.inj hread
      exact (Option.filter_eq_some_iff.mp hfound).2
    · cases hread

theorem isFinite_of_histogram {days : List (String × Float)}
    (h : ds.histogram row first last = .ok days) : ∀ day ∈ days, day.2.isFinite = true := by
  obtain ⟨range, _, hread⟩ := bind_eq_ok_iff.mp h
  obtain ⟨values, hvalues, hdays⟩ := bind_eq_ok_iff.mp hread
  obtain rfl := Except.ok.inj hdays
  intro day hday
  exact isFinite_of_numbers hvalues day.2 (List.of_mem_zip hday).2

/-! The first and the last day of a range -/

section

variable {a b : Nat}

/-- The position of the day that a range starts on. -/
def StartsOn (ds : Dataset) (a : Nat) : Option DateToken → Prop
  | none => a = 0
  | some token => token.position? ds.dates = some a

/-- The position of the last day of a range. -/
def EndsOn (ds : Dataset) (b : Nat) : Option DateToken → Prop
  | none => b + 1 = ds.length
  | some token => token.position? ds.dates = some b

theorem EndsOn.lt (h : ds.EndsOn b last) : b < ds.length := by
  cases last with
  | none => exact Nat.lt_of_succ_le (Nat.le_of_eq h)
  | some token => exact DateToken.position?_lt h

theorem rangeStart_eq_ok_iff : ds.rangeStart first = .ok a ↔ ds.StartsOn a first := by
  cases first with
  | none => simp [rangeStart, StartsOn, eq_comm]
  | some token => exact dateIndex_eq_ok_iff

theorem rangeStop_eq_ok_iff : ds.rangeStop last = .ok (b + 1) ↔ ds.EndsOn b last := by
  cases last with
  | none => simp [rangeStop, EndsOn, eq_comm]
  | some token => simp [rangeStop, EndsOn, map_eq_ok_iff, dateIndex_eq_ok_iff]

theorem exists_of_range_eq_ok {days : Nat × Nat} (h : ds.range first last = .ok days) :
    ∃ a b, days = (a, b + 1) ∧ a ≤ b ∧ ds.StartsOn a first ∧ ds.EndsOn b last := by
  simp only [range_eq, bind_eq_ok_iff] at h
  obtain ⟨start, hstart, stop, hstop, hdays⟩ := h
  split at hdays
  · cases hdays
  · rename_i hlt
    obtain ⟨b, rfl⟩ : ∃ b, stop = b + 1 := ⟨stop - 1, by omega⟩
    exact ⟨start, b, (Except.ok.inj hdays).symm, by omega, rangeStart_eq_ok_iff.mp hstart,
      rangeStop_eq_ok_iff.mp hstop⟩

theorem range_eq_ok_iff :
    ds.range first last = .ok (a, b + 1) ↔ a ≤ b ∧ ds.StartsOn a first ∧ ds.EndsOn b last := by
  constructor
  · intro h
    obtain ⟨a', b', hdays, hle, hstart, hend⟩ := exists_of_range_eq_ok h
    obtain ⟨rfl, hb⟩ := Prod.mk.inj hdays
    obtain rfl := Nat.succ.inj hb
    exact ⟨hle, hstart, hend⟩
  · rintro ⟨hle, hstart, hend⟩
    rw [range_eq, rangeStart_eq_ok_iff.mpr hstart, rangeStop_eq_ok_iff.mpr hend]
    exact if_neg (Nat.not_le.mpr (Nat.lt_succ_of_le hle))

/-- An aggregate reads the days from its first to its last one, or its first one alone. -/
theorem exists_of_aggregateDays_eq_ok {kind : Aggregate} {days : Nat × Nat}
    (h : ds.aggregateDays kind first last = .ok days) :
    ∃ a b, days = (a, b + 1) ∧ a ≤ b ∧ b < ds.length ∧ ds.StartsOn a first ∧
      if kind = .value then b = a else ds.EndsOn b last := by
  by_cases hkind : kind = .value
  · subst hkind
    obtain ⟨whole, hwhole, rfl⟩ := map_eq_ok_iff.mp h
    obtain ⟨a, b, rfl, hle, hstart, hend⟩ := exists_of_range_eq_ok hwhole
    exact ⟨a, a, rfl, Nat.le_refl a, Nat.lt_of_le_of_lt hle hend.lt, hstart, rfl⟩
  · have hrange : ds.range first last = .ok days := by
      cases kind with
      | value => exact absurd rfl hkind
      | min | max | avg => exact h
    obtain ⟨a, b, rfl, hle, hstart, hend⟩ := exists_of_range_eq_ok hrange
    exact ⟨a, b, rfl, hle, hend.lt, hstart, by rwa [if_neg hkind]⟩

theorem aggregateDays_bounds {kind : Aggregate} {days : Nat × Nat}
    (h : ds.aggregateDays kind first last = .ok days) :
    days.1 < days.2 ∧ days.2 ≤ ds.length := by
  obtain ⟨a, b, rfl, hle, hlt, -⟩ := exists_of_aggregateDays_eq_ok h
  exact ⟨Nat.lt_succ_of_le hle, hlt⟩

end

theorem readNumber_eq_ok_iff {row date value : String} {x : Float} :
    readNumber row date value = .ok x ↔ Decimal.readFinite? value.toList = some x := by
  rw [readNumber]
  cases Decimal.readFinite? value.toList <;> simp

end Dataset

end Almanac
