import Almanac.Proofs.Dataset.Reduction
import Almanac.Proofs.Dataset.Selection
import Almanac.Proofs.Dataset.WrittenForm

/-!
A histogram and the reductions to one number, over the same days. The bars stand for the days of
the range one by one, and the minimum, the maximum and the average are those of the bars, or fail
as the histogram does. A single value is read on its own way: its range runs to the last day there
is and only its first day counts. It is the value of the bar over that day, whatever last day was
given.
-/

namespace Almanac

/-- Items that are shown beside their results. -/
theorem map_zip_mapM {α β γ ε : Type} (f : α → Except ε β) (label : α → γ) (items : List α) :
    ((items.mapM f).map fun results => (items.map label).zip results) =
      items.mapM fun item => (f item).map fun result => (label item, result) := by
  induction items with
  | nil => rfl
  | cons item rest ih =>
    simp only [List.mapM_cons, List.map_cons, ← ih]
    cases f item with
    | error e => rfl
    | ok result => cases rest.mapM f <;> rfl

namespace Dataset

variable {ds : Dataset} {row : String} {first last : Option DateToken} {kind : Aggregate}
  {bars : List (String × Float)} {days : Nat × Nat} {e : DatasetError}

/-! The bar of a day -/

def numberOn? (ds : Dataset) (row : String) (day : Nat) : Option Float := do
  let values ← ds.row? row
  let text ← values[day]?
  Decimal.readFinite? text.toList

/-- What a bar shows about a day: its date and the number of the row. -/
structure BarOn (ds : Dataset) (row : String) (day : Nat) (bar : String × Float) : Prop where
  date : ds.dates[day]? = some bar.1
  number : ds.numberOn? row day = some bar.2

theorem WellFormed.barOn_iff (hds : ds.WellFormed) {values : List String}
    (hrow : ds.row? row = some values) {day : Nat} (hday : day < ds.length)
    {bar : String × Float} :
    ((readNumber row (ds.dates.getD day "") (values.getD day "")).map
        fun x => (ds.dates.getD day "", x)) = .ok bar ↔ ds.BarOn row day bar := by
  have hdate : ds.dates[day]? = some (ds.dates.getD day "") := by
    simp [List.getElem?_eq_getElem (show day < ds.dates.length from hday)]
  have hvalue : values[day]? = some (values.getD day "") := by
    have hlt : day < values.length := (hds.length_of_row? hrow).symm ▸ hday
    simp [List.getElem?_eq_getElem hlt]
  have hnumber : ds.numberOn? row day = Decimal.readFinite? (values.getD day "").toList := by
    simp only [numberOn?, hrow, hvalue, Option.bind_eq_bind, Option.bind_some]
  obtain ⟨date, x⟩ := bar
  rw [map_eq_ok_iff]
  constructor
  · rintro ⟨y, hy, hbar⟩
    obtain ⟨hdate', rfl⟩ := Prod.mk.inj hbar
    exact ⟨hdate.trans (congrArg some hdate'), hnumber.trans (readNumber_eq_ok_iff.mp hy)⟩
  · intro h
    refine ⟨x, readNumber_eq_ok_iff.mpr (hnumber.symm.trans h.number), ?_⟩
    rw [Option.some.inj (hdate.symm.trans h.date)]

/-- Reading the numbers of a row and setting them beside the dates gives the bars of the days, one
after another. -/
theorem WellFormed.map_numbers_eq_ok_iff (hds : ds.WellFormed) (hlt : days.1 < days.2)
    (hin : days.2 ≤ ds.length) :
    ((ds.numbers row days).map fun values => (slice ds.dates days).zip values) = .ok bars ↔
      List.Forall₂ (ds.BarOn row) (List.range' days.1 (days.2 - days.1)) bars := by
  cases hrow : ds.row? row with
  | none =>
    -- No day has a number, and there is a day.
    obtain ⟨n, hn⟩ : ∃ n, days.2 - days.1 = n + 1 := ⟨days.2 - days.1 - 1, by omega⟩
    simp only [numbers, hrow, hn, List.range'_succ, List.forall₂_cons_left_iff]
    constructor
    · intro h
      cases h
    · rintro ⟨bar, _, hbar, -⟩
      have hnumber := hbar.number
      simp [numberOn?, hrow] at hnumber
  | some values =>
    have hdates : days.2 ≤ ds.dates.length := hin
    have hvalues : days.2 ≤ values.length := (hds.length_of_row? hrow).symm ▸ hin
    simp only [numbers, hrow, slice_eq_map "" hdates, slice_eq_map "" hvalues, List.zip_map',
      List.mapM_map, map_zip_mapM, mapM_eq_ok_iff]
    refine forall₂_congr_left fun day hday bar => hds.barOn_iff hrow ?_
    rw [List.mem_range'_1] at hday
    omega

/-- A histogram has a bar for each day from its first to its last one, in their order. -/
theorem WellFormed.histogram_eq_ok_iff (hds : ds.WellFormed) :
    ds.histogram row first last = .ok bars ↔
      ∃ a b, a ≤ b ∧ ds.StartsOn a first ∧ ds.EndsOn b last ∧
        List.Forall₂ (ds.BarOn row) (List.range' a (b + 1 - a)) bars := by
  have hmap (days : Nat × Nat) : (do
      let values ← ds.numbers row days
      pure ((slice ds.dates days).zip values)) =
        (ds.numbers row days).map fun values => (slice ds.dates days).zip values := by
    cases ds.numbers row days <;> rfl
  simp only [histogram, bind_eq_ok_iff, hmap]
  constructor
  · rintro ⟨days, hrange, hbars⟩
    obtain ⟨hlt, hin, -⟩ := range_eq_ok hrange
    obtain ⟨a, b, rfl, hle, hstart, hend⟩ := exists_of_range_eq_ok hrange
    exact ⟨a, b, hle, hstart, hend, (hds.map_numbers_eq_ok_iff hlt hin).mp hbars⟩
  · rintro ⟨a, b, hle, hstart, hend, hbars⟩
    have hrange : ds.range first last = .ok (a, b + 1) :=
      range_eq_ok_iff.mpr ⟨hle, hstart, hend⟩
    obtain ⟨hlt, hin, -⟩ := range_eq_ok hrange
    exact ⟨(a, b + 1), hrange, (hds.map_numbers_eq_ok_iff hlt hin).mpr hbars⟩

/-! Reducing the bars -/

/-- An aggregate is the reduction of the bars of some histogram, the one over its own days. -/
theorem WellFormed.aggregate_eq_bind_histogram (hds : ds.WellFormed)
    {first' last' : Option DateToken}
    (hdays : ds.aggregateDays kind first last = ds.range first' last') :
    ds.aggregate kind row first last = (do
      let bars ← ds.histogram row first' last'
      (kind.reduce? (bars.map Prod.snd)).elim (.error (.emptyRange "" "")) pure) := by
  rw [aggregate, histogram, hdays]
  cases hrange : ds.range first' last' with
  | error e => rfl
  | ok days =>
    obtain ⟨-, hin, -⟩ := range_eq_ok hrange
    simp only [bind, Except.bind]
    cases hvalues : ds.numbers row days with
    | error e => rfl
    | ok values =>
      have hlength : values.length = (slice ds.dates days).length := by
        rw [length_of_numbers hds hin hvalues]
        exact (length_slice hin).symm
      have hsnd : ((slice ds.dates days).zip values).map Prod.snd = values :=
        List.map_snd_zip (Nat.le_of_eq hlength)
      simp only [pure, Except.pure, hsnd]
      cases kind.reduce? values <;> rfl

/-- The bars can be reduced, as there are some, and all of them are finite. -/
theorem WellFormed.exists_reduce?_of_histogram (hds : ds.WellFormed)
    (h : ds.histogram row first last = .ok bars) (kind : Aggregate) :
    ∃ x, kind.reduce? (bars.map Prod.snd) = some x ∧ kind.Reduces (bars.map Prod.snd) x := by
  obtain ⟨a, b, hle, -, -, hbars⟩ := hds.histogram_eq_ok_iff.mp h
  obtain ⟨x, hx⟩ : ∃ x, kind.reduce? (bars.map Prod.snd) = some x := by
    refine Option.ne_none_iff_exists'.mp fun hnone => ?_
    have hnil := List.map_eq_nil_iff.mp (reduce?_eq_none_iff.mp hnone)
    have hlength := hbars.length_eq
    rw [hnil, List.length_range', List.length_nil] at hlength
    omega
  exact ⟨x, hx, Aggregate.reduces_of_reduce?
    (List.forall_mem_map.mpr (isFinite_of_histogram h)) hx⟩

theorem aggregateDays_of_ne_value (hkind : kind ≠ .value) :
    ds.aggregateDays kind first last = ds.range first last := by
  cases kind with
  | value => exact absurd rfl hkind
  | min | max | avg => rfl

/-- The days of a single value are those from its day to the same day. -/
theorem aggregateDays_value (token : DateToken) (stop : Option DateToken) :
    ds.aggregateDays .value (some token) stop = ds.range (some token) (some token) := by
  rw [aggregateDays]
  cases hday : ds.dateIndex token with
  | error e => simp only [range_eq, rangeStart, hday, bind, Except.bind, Except.map]
  | ok day =>
    have hstart : ds.StartsOn day (some token) := dateIndex_eq_ok_iff.mp hday
    have hend : ds.EndsOn day (some token) := hstart
    have hlt : day < ds.length := hend.lt
    have htail : ds.EndsOn (ds.length - 1) none := by
      show ds.length - 1 + 1 = ds.length
      omega
    have hle : day ≤ ds.length - 1 := by omega
    rw [range_eq_ok_iff.mpr ⟨hle, hstart, htail⟩,
      range_eq_ok_iff.mpr ⟨Nat.le_refl day, hstart, hend⟩]
    rfl

/-- What comes of reducing bars comes of the bars. -/
theorem WellFormed.aggregate_of_histogram (hds : ds.WellFormed) (row : String)
    {first' last' : Option DateToken}
    (hdays : ds.aggregateDays kind first last = ds.range first' last') :
    (∀ e, ds.histogram row first' last' = .error e ↔
      ds.aggregate kind row first last = .error e) ∧
    ∀ bars, ds.histogram row first' last' = .ok bars →
      ∃ x, kind.reduce? (bars.map Prod.snd) = some x ∧ kind.Reduces (bars.map Prod.snd) x ∧
        ds.aggregate kind row first last = .ok x := by
  rw [hds.aggregate_eq_bind_histogram hdays]
  cases hbars : ds.histogram row first' last' with
  | error e => simp [bind, Except.bind]
  | ok bars =>
    obtain ⟨x, hx, hreduces⟩ := hds.exists_reduce?_of_histogram hbars kind
    simp [bind, Except.bind, pure, Except.pure, hx, hreduces]

/-- A histogram from a day to the same day has the one bar over it. -/
theorem WellFormed.exists_of_histogram_day (hds : ds.WellFormed) {token : DateToken}
    (h : ds.histogram row (some token) (some token) = .ok bars) :
    ∃ date x, bars = [(date, x)] := by
  obtain ⟨a, b, -, hstart, hend, hbars⟩ := hds.histogram_eq_ok_iff.mp h
  obtain rfl : a = b := Option.some.inj (hstart.symm.trans hend)
  have hlength := hbars.length_eq
  rw [List.length_range', Nat.add_sub_cancel_left] at hlength
  obtain ⟨⟨date, x⟩, rfl⟩ := List.length_eq_one_iff.mp hlength.symm
  exact ⟨date, x, rfl⟩

/-- Histograms and aggregates agree. A histogram is given exactly if the range has days and each of
them has a number in the row; then it has the date and the number of each of these days, in file
order. The minimum, the maximum and the average fail as the histogram does, and where it has bars
they are those of the values of the bars. A single value is that of the one bar over its day and
fails as the histogram over this day does, whatever last day is given. -/
theorem histogram_agrees_with_aggregate (hds : ds.WellFormed) (row : String) :
    (∀ first last bars, ds.histogram row first last = .ok bars ↔
      ∃ a b, a ≤ b ∧ ds.StartsOn a first ∧ ds.EndsOn b last ∧
        List.Forall₂ (ds.BarOn row) (List.range' a (b + 1 - a)) bars) ∧
    (∀ first last (kind : Aggregate), kind ≠ .value →
      ((∃ bars, ds.histogram row first last = .ok bars) ↔
        ∃ x, ds.aggregate kind row first last = .ok x) ∧
      (∀ e, ds.histogram row first last = .error e ↔
        ds.aggregate kind row first last = .error e) ∧
      ∀ bars, ds.histogram row first last = .ok bars →
        ∃ x, kind.reduce? (bars.map Prod.snd) = some x ∧
          kind.Reduces (bars.map Prod.snd) x ∧ ds.aggregate kind row first last = .ok x) ∧
    ∀ token stop,
      (∀ e, ds.histogram row (some token) (some token) = .error e ↔
        ds.aggregate .value row (some token) stop = .error e) ∧
      ∀ bars, ds.histogram row (some token) (some token) = .ok bars →
        ∃ date x, bars = [(date, x)] ∧
          ds.aggregate .value row (some token) stop = .ok x := by
  refine ⟨fun first last bars => hds.histogram_eq_ok_iff, ?_, ?_⟩
  · intro first last kind hkind
    obtain ⟨herror, hok⟩ :=
      hds.aggregate_of_histogram row (aggregateDays_of_ne_value hkind)
    refine ⟨⟨?_, ?_⟩, herror, hok⟩
    · rintro ⟨bars, hbars⟩
      obtain ⟨x, -, -, hx⟩ := hok bars hbars
      exact ⟨x, hx⟩
    · rintro ⟨x, hx⟩
      cases hbars : ds.histogram row first last with
      | ok bars => exact ⟨bars, rfl⟩
      | error e =>
        rw [(herror e).mp hbars] at hx
        cases hx
  · intro token stop
    obtain ⟨herror, hok⟩ :=
      hds.aggregate_of_histogram row (aggregateDays_value token stop)
    refine ⟨herror, fun bars hbars => ?_⟩
    obtain ⟨date, x, rfl⟩ := hds.exists_of_histogram_day hbars
    obtain ⟨y, hy, -, haggregate⟩ := hok _ hbars
    obtain rfl : x = y := Option.some.inj hy
    exact ⟨date, x, rfl, haggregate⟩

/-- A range from an ISO date to the second day from the end, a range that ends before it starts,
and a single value whose last day lies before it. -/
theorem histogram_agrees_with_aggregate_three_days :
    let ds : Dataset := ⟨[⟨"date", ["2024-04-24", "2024-04-25", "2024-04-26"]⟩,
      ⟨"t", ["75", "80", "65"]⟩]⟩
    ds.WellFormed ∧
      ds.aggregate .avg "t" (some (.iso "2024-04-24")) (some (.index (-2))) = .ok 77.5 ∧
      ds.aggregate .min "t" (some (.index 2)) (some (.index (-2))) =
        .error (.emptyRange "2" "-2") ∧
      ds.aggregate .value "t" (some (.index (-1))) (some (.index 0)) = .ok 65 := by
  intro ds
  have hds : ds.WellFormed := (check_eq_ok_iff _).mp (by decide)
  obtain ⟨-, hreduced, hvalue⟩ := histogram_agrees_with_aggregate hds "t"
  have hbars : ds.histogram "t" (some (.iso "2024-04-24")) (some (.index (-2))) =
      .ok [("2024-04-24", 75), ("2024-04-25", 80)] := by
    decide +kernel
  have hreversed : ds.histogram "t" (some (.index 2)) (some (.index (-2))) =
      .error (.emptyRange "2" "-2") := by
    decide +kernel
  have hbar : ds.histogram "t" (some (.index (-1))) (some (.index (-1))) =
      .ok [("2024-04-26", 65)] := by
    decide +kernel
  obtain ⟨x, havg, -, hx⟩ := (hreduced _ _ .avg (by decide)).2.2 _ hbars
  have hmean : Aggregate.avg.reduce? [75, 80] = some 77.5 := by decide +kernel
  obtain rfl := Option.some.inj (hmean.symm.trans havg)
  refine ⟨hds, hx, ((hreduced _ _ .min (by decide)).2.1 _).mp hreversed, ?_⟩
  obtain ⟨date, x, hone, hx⟩ := (hvalue (.index (-1)) (some (.index 0))).2 _ hbar
  obtain ⟨-, rfl⟩ := Prod.mk.inj (List.singleton_inj.mp hone)
  exact hx

end Dataset

end Almanac
