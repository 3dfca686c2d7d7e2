import Almanac.Proofs.Dataset.Histogram
import Almanac.Proofs.Evaluation.ArchiveDays

/-!
Ranges of days and the calendar. A range goes by the places of its days and not by their dates, and
a dataset may have its dates in any order. So a range runs forward in time only as far as the dates
of the dataset do: the bars of a histogram are in the order of their dates, and the archive is asked
for a period that does not end before it starts, exactly if no two days next to each other that
both have a number go back in time.
-/

namespace Almanac

/-- The number that the digits of a date make, which grows along the calendar. -/
def ordinal (date : String) : Nat := Decimal.naturalOf (date.toList.filter Char.isDigit)

/-- Years count before months, and months before days. -/
theorem ordinal_of_isIsoDate {date : String} (h : isIsoDate date = true) :
    ∃ year month day : List Char, date.toList = year ++ '-' :: (month ++ '-' :: day) ∧
      year.length = 4 ∧ month.length = 2 ∧ day.length = 2 ∧
      ordinal date = (Decimal.naturalOf year * 100 + Decimal.naturalOf month) * 100 +
        Decimal.naturalOf day := by
  unfold isIsoDate at h
  split at h
  · rename_i y₁ y₂ y₃ y₄ h₁ m₁ m₂ h₂ d₁ d₂ hdate
    simp only [Bool.and_eq_true, decide_eq_true_eq, List.all_cons, List.all_nil] at h
    obtain ⟨⟨⟨hy₁, hy₂, hy₃, hy₄, hm₁, hm₂, hd₁, hd₂, -⟩, rfl⟩, rfl⟩ := h
    have hmark : '-'.isDigit = false := by decide
    refine ⟨[y₁, y₂, y₃, y₄], [m₁, m₂], [d₁, d₂], hdate, rfl, rfl, rfl, ?_⟩
    simp only [ordinal, hdate, List.filter, hy₁, hy₂, hy₃, hy₄, hm₁, hm₂, hd₁, hd₂, hmark,
      Decimal.naturalOf, List.foldl]
    omega
  · cases h

def NotAfter (first last : String) : Prop := ordinal first ≤ ordinal last

instance (first last : String) : Decidable (NotAfter first last) :=
  inferInstanceAs (Decidable (ordinal first ≤ ordinal last))

namespace Dataset

variable {ds : Dataset} {row : String} {first last : Option DateToken} {i j : Nat}
  {d e : String}

/-- Where two days next to each other both have a number in a row, the date of the second one is
not before that of the first one. -/
def Chronological (ds : Dataset) (row : String) : Prop :=
  ∀ (day : Nat) (d e : String) (x y : Float),
    ds.dates[day]? = some d → ds.dates[day + 1]? = some e →
      ds.numberOn? row day = some x → ds.numberOn? row (day + 1) = some y → NotAfter d e

/-- Each histogram of a row has its bars in the order of their dates. -/
def ChartsForward (ds : Dataset) (row : String) : Prop :=
  ∀ first last bars, ds.histogram row first last = .ok bars →
    (bars.map Prod.fst).Pairwise NotAfter

/-- Whenever the archive is asked about a row of the dataset, it is asked for a period that does not
end before it starts. -/
def AsksForward (ds : Dataset) (row : String) : Prop :=
  ∀ (env : Environment) (print : Bool) (q : Query) (asked : Weather.ArchiveQuery),
    env.dataset = ds → asked.row = row → .archive asked ∈ (env.evaluate print q).calls →
      NotAfter asked.first asked.last

theorem chronological_of_pairwise (h : ds.dates.Pairwise NotAfter) (row : String) :
    ds.Chronological row := by
  intro day d e x y hd he _ _
  obtain ⟨hday, rfl⟩ := List.getElem?_eq_some_iff.mp hd
  obtain ⟨hnext, rfl⟩ := List.getElem?_eq_some_iff.mp he
  exact List.pairwise_iff_getElem.mp h day (day + 1) hday hnext (Nat.lt_succ_self day)

/-- Along days that all have a number, the dates do not go back. -/
theorem Chronological.notAfter (h : ds.Chronological row) (hij : i ≤ j)
    (hnumbers : ∀ day, i ≤ day → day ≤ j → ∃ x, ds.numberOn? row day = some x)
    (hd : ds.dates[i]? = some d) (he : ds.dates[j]? = some e) : NotAfter d e := by
  induction j, hij using Nat.le_induction generalizing e with
  | base =>
    obtain rfl := Option.some.inj (hd.symm.trans he)
    exact Nat.le_refl _
  | succ j hij ih =>
    obtain ⟨hnext, -⟩ := List.getElem?_eq_some_iff.mp he
    have hbefore : ds.dates[j]? = some ds.dates[j] := List.getElem?_eq_getElem (by omega)
    obtain ⟨x, hx⟩ := hnumbers j hij (by omega)
    obtain ⟨y, hy⟩ := hnumbers (j + 1) (by omega) (Nat.le_refl _)
    have hupto : NotAfter d ds.dates[j] :=
      ih (fun day hlow hhigh => hnumbers day hlow (by omega)) hbefore
    exact Nat.le_trans hupto (h j _ _ x y hbefore he hx hy)

/-- Each bar of a histogram is that of the day that many days after the first one. -/
theorem barOn_of_getElem? {bars : List (String × Float)} {a n : Nat} {bar : String × Float}
    (h : List.Forall₂ (ds.BarOn row) (List.range' a n) bars) (hbar : bars[i]? = some bar) :
    ds.BarOn row (a + i) bar := by
  obtain ⟨hlt, rfl⟩ := List.getElem?_eq_some_iff.mp hbar
  have hrange : i < (List.range' a n).length := h.length_eq.symm ▸ hlt
  have hget := h.get hrange hlt
  simpa using hget

theorem exists_numberOn? {bars : List (String × Float)} {a b day : Nat}
    (h : List.Forall₂ (ds.BarOn row) (List.range' a (b + 1 - a)) bars) (hlow : a ≤ day)
    (hhigh : day ≤ b) : ∃ x, ds.numberOn? row day = some x := by
  have hmem : day ∈ List.range' a (b + 1 - a) := by
    rw [List.mem_range'_1]
    omega
  obtain ⟨bar, hbar⟩ := exists_forall₂_iff.mp ⟨bars, h⟩ day hmem
  exact ⟨bar.2, hbar.number⟩

/-! Dates in order -/

theorem Chronological.chartsForward (h : ds.Chronological row) (hds : ds.WellFormed) :
    ds.ChartsForward row := by
  intro first last bars hhistogram
  obtain ⟨a, b, hle, -, -, hbars⟩ := hds.histogram_eq_ok_iff.mp hhistogram
  have hlength : b + 1 - a = bars.length := by rw [← hbars.length_eq, List.length_range']
  rw [List.pairwise_map, List.pairwise_iff_getElem]
  intro i j hi hj hij
  have hbar := barOn_of_getElem? hbars (List.getElem?_eq_getElem hi)
  have hother := barOn_of_getElem? hbars (List.getElem?_eq_getElem hj)
  refine h.notAfter (i := a + i) (j := a + j) (by omega) (fun day hlow hhigh => ?_) hbar.date
    hother.date
  exact exists_numberOn? hbars (by omega) (by omega)

/-- Places stand for days only as far as they can count. -/
theorem length_lt_of_resolveDate {place : Int} (h : ds.resolveDate (.index place) = .ok d) :
    ds.length < placeLimit := by
  rw [resolveDate] at h
  split at h
  · cases h
  · rename_i position hposition
    exact (relativeIndex_eq_some_iff.mp (dateIndex_eq_ok_iff.mp hposition)).1

/-- The date of the day that a token refers to is the one that the token resolves to. -/
theorem resolveDate_eq_ok_iff {token : DateToken} (h : token.position? ds.dates = some i) :
    ds.resolveDate token = .ok d ↔ ds.dates[i]? = some d := by
  obtain ⟨date, hdate, hresolve⟩ := exists_resolveDate_of_position h
  rw [hdate, hresolve, Except.ok.injEq, Option.some.injEq]

theorem StartsOn.date_firstDay {m : Measure} (h : ds.StartsOn i m.first) (hlt : i < ds.length)
    (hd : ds.resolveDate m.firstDay = .ok d) : ds.dates[i]? = some d := by
  have hposition : m.firstDay.position? ds.dates = some i := by
    cases hfirst : m.first with
    | none =>
      rw [Measure.firstDay, hfirst] at hd
      exact h.position_firstDay hlt (length_lt_of_resolveDate hd)
    | some token =>
      rw [hfirst] at h
      rw [Measure.firstDay, hfirst]
      exact h
  exact (resolveDate_eq_ok_iff hposition).mp hd

theorem EndsOn.date_lastDay {m : Measure} (h : ds.EndsOn j m.last) (hkind : m.kind ≠ .value)
    (he : ds.resolveDate m.lastDay = .ok e) : ds.dates[j]? = some e := by
  have hday := lastDay_of_ne_value hkind
  have hposition : m.lastDay.position? ds.dates = some j := by
    cases hlast : m.last with
    | none =>
      rw [hday, hlast] at he
      exact h.position_lastDay hkind (length_lt_of_resolveDate he)
    | some token =>
      rw [hlast] at h
      rw [hday, hlast]
      exact h
  exact (resolveDate_eq_ok_iff hposition).mp he

/-- A measure other than a single value is that of the bars of a histogram. -/
theorem WellFormed.exists_histogram_of_measure (hds : ds.WellFormed) {m : Measure} {x : Float}
    (hkind : m.kind ≠ .value) (h : ds.measure m = .ok x) :
    ∃ bars, ds.histogram m.row m.first m.last = .ok bars := by
  cases hbars : ds.histogram m.row m.first m.last with
  | ok bars => exact ⟨bars, rfl⟩
  | error failure =>
    have hfails := ((hds.aggregate_of_histogram m.row (aggregateDays_of_ne_value hkind)).1
      failure).mp hbars
    cases h.symm.trans hfails

theorem Chronological.asksForward (h : ds.Chronological row) (hds : ds.WellFormed) :
    ds.AsksForward row := by
  rintro env print q asked rfl rfl hcall
  obtain ⟨location, m, coordinates, d, e, hcompares, -, hd, he, rfl⟩ :=
    Environment.archive_mem_calls_evaluate.mp hcall
  show NotAfter d e
  by_cases hkind : m.kind = .value
  · -- A single value is of one day.
    have hsame : m.lastDay = m.firstDay := by rw [Measure.lastDay, hkind]
    rw [hsame] at he
    rw [Except.ok.inj (hd.symm.trans he)]
    exact Nat.le_refl _
  · obtain ⟨-, x, hx⟩ := (Environment.compares_iff hcompares.action).mp hcompares
    obtain ⟨bars, hhistogram⟩ :=
      hds.exists_histogram_of_measure hkind (mapError_eq_ok_iff.mp hx)
    obtain ⟨a, b, hle, hstart, hend, hbars⟩ := hds.histogram_eq_ok_iff.mp hhistogram
    have hlt : a < env.dataset.length := Nat.lt_of_le_of_lt hle hend.lt
    exact h.notAfter hle (fun day hlow hhigh => exists_numberOn? hbars hlow hhigh)
      (hstart.date_firstDay hlt hd) (hend.date_lastDay hkind he)

/-! Dates out of order -/

section

variable {day : Nat} {x y : Float}

theorem position?_index (hfew : ds.length < placeLimit) (hlt : day < ds.length) :
    (DateToken.index day).position? ds.dates = some day :=
  relativeIndex_eq_some_iff.mpr ⟨hfew, hlt, .inl rfl⟩

/-- Two days next to each other make a histogram of two bars. -/
theorem WellFormed.histogram_two_days (hds : ds.WellFormed) (hfew : ds.length < placeLimit)
    (hd : ds.dates[day]? = some d) (he : ds.dates[day + 1]? = some e)
    (hx : ds.numberOn? row day = some x) (hy : ds.numberOn? row (day + 1) = some y) :
    ds.histogram row (some (.index day)) (some (.index (day + 1))) = .ok [(d, x), (e, y)] := by
  obtain ⟨hnext, -⟩ := List.getElem?_eq_some_iff.mp he
  have hdays : day + 1 + 1 - day = 2 := by omega
  have hstart : ds.StartsOn day (some (.index day)) :=
    position?_index hfew (Nat.lt_of_succ_lt hnext)
  have hend : ds.EndsOn (day + 1) (some (.index (day + 1))) := position?_index hfew hnext
  refine hds.histogram_eq_ok_iff.mpr ⟨day, day + 1, Nat.le_succ day, hstart, hend, ?_⟩
  rw [hdays]
  exact .cons ⟨hd, hx⟩ (.cons ⟨he, hy⟩ .nil)

theorem ChartsForward.chronological (h : ds.ChartsForward row) (hds : ds.WellFormed)
    (hfew : ds.length < placeLimit) : ds.Chronological row := by
  intro day d e x y hd he hx hy
  have hpairwise := h _ _ _ (hds.histogram_two_days hfew hd he hx hy)
  exact List.rel_of_pairwise_cons hpairwise List.mem_cons_self

def comparing (row : String) (day : Nat) : Query where
  command := "compare"
  variant := some "coord"
  args :=
    [⟨"latitude", .number, .number 0, "0", .empty 0⟩,
      ⟨"longitude", .number, .number 0, "0", .empty 0⟩]
  subQueries :=
    [{  command := "min"
        variant := none
        args :=
          [⟨"row", .row, .row row, "", .empty 0⟩,
            ⟨"start", .date, .date (.index day), "", .empty 0⟩,
            ⟨"end", .date, .date (.index (day + 1)), "", .empty 0⟩]
        subQueries := []
        span := .empty 0 }]
  span := .empty 0

theorem ofQuery_comparing (row : String) (day : Nat) :
    Action.ofQuery (comparing row day) = .ok (.compareWith (.point ⟨0, 0⟩)
      ⟨.min, row, some (.index day), some (.index (day + 1)), .empty 0⟩) := rfl

theorem AsksForward.chronological (h : ds.AsksForward row) (hds : ds.WellFormed)
    (hfew : ds.length < placeLimit) : ds.Chronological row := by
  intro day d e x y hd he hx hy
  let m : Measure := ⟨.min, row, some (.index day), some (.index (day + 1)), .empty 0⟩
  let env : Environment := ⟨.builtin, ds, ⟨fun _ => .error "", fun _ => .error ""⟩⟩
  have hkind : Aggregate.min ≠ .value := by decide
  obtain ⟨z, -, -, hmeasure⟩ :=
    (hds.aggregate_of_histogram row (aggregateDays_of_ne_value hkind)).2 _
      (hds.histogram_two_days hfew hd he hx hy)
  have hmeasured : ∃ z, env.measure m = .ok z := ⟨z, mapError_eq_ok_iff.mpr hmeasure⟩
  have hnamed {place : Nat} {date : String} (hdate : ds.dates[place]? = some date) :
      ds.resolveDate (.index place) = .ok date := by
    obtain ⟨hlt, -⟩ := List.getElem?_eq_some_iff.mp hdate
    exact (resolveDate_eq_ok_iff (position?_index hfew hlt)).mpr hdate
  refine h env false (comparing row day) ⟨⟨0, 0⟩, .min, row, d, e⟩ rfl rfl ?_
  rw [Environment.calls_evaluate (ofQuery_comparing row day),
    Environment.archive_mem_calls_compareWith]
  exact ⟨hmeasured, _, _, _, rfl, hnamed hd, hnamed he, rfl⟩

end

/-- Ranges follow the calendar as far as the dataset does. If no two days next to each other that
both have a number in a row go back in time, in particular if the dates are in order, then all
histograms of the row have their bars in the order of their dates, and all comparisons of it ask the
archive for a period that does not end before it starts. Among as many days as places can count,
each of the two holds in no other case. -/
theorem ranges_follow_calendar {text : String} (h : parse text = .ok ds) (row : String) :
    (ds.dates.Pairwise NotAfter → ds.Chronological row) ∧
      (ds.Chronological row → ds.ChartsForward row ∧ ds.AsksForward row) ∧
      (ds.length < placeLimit → ds.ChartsForward row ∨ ds.AsksForward row →
        ds.Chronological row) := by
  have hds : ds.WellFormed := (of_parse h).1
  refine ⟨fun hdates => chronological_of_pairwise hdates row, ?_, ?_⟩
  · intro hrow
    exact ⟨hrow.chartsForward hds, hrow.asksForward hds⟩
  · rintro hfew (hcharts | hasks)
    · exact hcharts.chronological hds hfew
    · exact hasks.chronological hds hfew

theorem ranges_follow_calendar_three_days :
    let ds : Dataset := ⟨[⟨"date", ["2024-02-29", "2024-03-01", "2024-12-31"]⟩,
      ⟨"t", ["75", "80", "65"]⟩]⟩
    ds.ChartsForward "t" ∧ ds.AsksForward "t" := by
  intro ds
  have hparse : parse "date: 2024-02-29 2024-03-01 2024-12-31\nt: 75 80 65\n" = .ok ds := rfl
  obtain ⟨hdates, hforward, -⟩ := ranges_follow_calendar hparse "t"
  exact hforward (hdates (by decide +kernel))

/-- A dataset is accepted also if the later one of two days comes first. Then the histogram goes
back in time, and so does the period that the archive is asked for. -/
theorem ranges_go_back :
    let ds : Dataset := ⟨[⟨"date", ["2024-04-25", "2024-04-24"]⟩, ⟨"t", ["1", "2"]⟩]⟩
    let env : Environment := ⟨.builtin, ds, ⟨fun _ => .error "offline", fun _ => .ok 60⟩⟩
    parse "date: 2024-04-25 2024-04-24\nt: 1 2\n" = .ok ds ∧
      ds.histogram "t" none none = .ok [("2024-04-25", 1), ("2024-04-24", 2)] ∧
      (∃ q, Query.parse env.table ds.length false "compare coord 39 -95 max `t`" = .ok q ∧
        .archive ⟨⟨39, -95⟩, .max, "t", "2024-04-25", "2024-04-24"⟩ ∈
          (env.evaluate true q).calls) ∧
      ¬ ds.ChartsForward "t" ∧ ¬ ds.AsksForward "t" := by
  intro ds env
  have hback : ¬ NotAfter "2024-04-25" "2024-04-24" := by decide +kernel
  have hcharts : ds.histogram "t" none none = .ok [("2024-04-25", 1), ("2024-04-24", 2)] := by
    decide +kernel
  let sub : Query := ⟨"max", none, [⟨"row", .row, .row "t", "`t`", ⟨25, 28⟩⟩], [], ⟨21, 28⟩⟩
  let q : Query := ⟨"compare", some "coord",
    [⟨"location type", .enum, .enum "coord", "coord", ⟨8, 13⟩⟩,
      ⟨"latitude", .number, .number 39, "39", ⟨14, 16⟩⟩,
      ⟨"longitude", .number, .number (-95), "-95", ⟨17, 20⟩⟩], [sub], ⟨0, 28⟩⟩
  have htokens : tokenize "compare coord 39 -95 max `t`" =
      [⟨"compare", 0⟩, ⟨"coord", 8⟩, ⟨"39", 14⟩, ⟨"-95", 17⟩, ⟨"max", 21⟩, ⟨"`t`", 25⟩] := by
    decide +kernel
  have hsub : Query.ofTokens env.table 2 28 true [⟨"max", 21⟩, ⟨"`t`", 25⟩] = .ok sub :=
    Query.ofTokens_cons_eq_ok_iff.mpr ⟨CommandTable.builtin.commands[4], _, [], [],
      ⟨rfl, by decide, rfl, by decide +kernel⟩, .nil, rfl⟩
  have hq : Query.parse env.table ds.length false "compare coord 39 -95 max `t`" = .ok q := by
    rw [Query.parse, htokens]
    exact Query.ofTokens_cons_eq_ok_iff.mpr ⟨CommandTable.builtin.commands[8], _, _, _,
      ⟨rfl, by decide, rfl, by decide +kernel⟩, .cons hsub .nil, rfl⟩
  have hcall : .archive ⟨⟨39, -95⟩, .max, "t", "2024-04-25", "2024-04-24"⟩ ∈
      (env.evaluate true q).calls := by
    have haction : Action.ofQuery q =
        .ok (.compareWith (.point ⟨39, -95⟩) ⟨.max, "t", none, none, ⟨21, 28⟩⟩) := rfl
    rw [Environment.calls_evaluate haction, Environment.archive_mem_calls_compareWith]
    exact ⟨⟨2, by decide +kernel⟩, _, _, _, rfl, by decide +kernel, by decide +kernel, rfl⟩
  refine ⟨rfl, hcharts, ⟨q, hq, hcall⟩, fun h => ?_, fun h => ?_⟩
  · have hpairwise := h _ _ _ hcharts
    exact hback (List.rel_of_pairwise_cons hpairwise List.mem_cons_self)
  · exact hback (h env true q _ rfl rfl hcall)

end Dataset

end Almanac
