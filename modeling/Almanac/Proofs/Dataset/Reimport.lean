import Almanac.Proofs.Dataset.Merging

/-!
The records of a dataset, merged into it again. Each of them is accepted, since its date is one of
the dataset and its fields are columns. But records are found by their dates and not by their
places, so all days with the same date are merged into the first one of them, and the values of the
last one stay. Nothing changes if dates are given once, or if days with the same date agree.
-/

namespace Almanac

/-- Of the positions with a property, the last one. -/
theorem getLast?_filter_range {n last : Nat} {p : Nat → Bool} :
    ((List.range n).filter p).getLast? = some last ↔
      (last < n ∧ p last = true) ∧ ∀ i, last < i → i < n → p i = false := by
  induction n with
  | zero => simp
  | succ n ih =>
    rw [List.range_succ, List.filter_append]
    by_cases hn : p n = true
    · rw [List.filter_cons_of_pos hn, List.filter_nil, List.getLast?_concat, Option.some.injEq]
      constructor
      · rintro rfl
        exact ⟨⟨Nat.lt_succ_self n, hn⟩, fun i hlow hhigh => by omega⟩
      · rintro ⟨⟨hlt, -⟩, hmax⟩
        by_contra hne
        have hfalse := hmax n (by omega) (Nat.lt_succ_self n)
        rw [hn] at hfalse
        cases hfalse
    · rw [List.filter_cons_of_neg hn, List.filter_nil, List.append_nil, ih]
      have hne (h : p last = true) : last ≠ n := fun heq => hn (heq ▸ h)
      constructor
      · rintro ⟨⟨hlt, hlast⟩, hmax⟩
        refine ⟨⟨by omega, hlast⟩, fun i hlow hhigh => ?_⟩
        by_cases hi : i = n
        · rw [hi, Bool.eq_false_iff.mpr hn]
        · exact hmax i hlow (by omega)
      · rintro ⟨⟨hlt, hlast⟩, hmax⟩
        have := hne hlast
        exact ⟨⟨by omega, hlast⟩, fun i hlow hhigh => hmax i hlow (by omega)⟩

namespace Dataset

variable {ds : Dataset} {c : Column} {date : String} {first last day : Nat}

/-- The first and the last day with a date. -/
structure DaysOf (ds : Dataset) (date : String) (first last : Nat) : Prop where
  first_at : ds.dates[first]? = some date
  last_at : ds.dates[last]? = some date
  within : ∀ day, ds.dates[day]? = some date → first ≤ day ∧ day ≤ last

/-! Records of a dataset -/

theorem ordered_record (ds : Dataset) (day : Nat) :
    Keyed.Ordered ((ds.record day).map Prod.fst) :=
  Keyed.ordered_ofList _

theorem ordered_records (ds : Dataset) :
    ∀ fields ∈ ds.records, Keyed.Ordered (fields.map Prod.fst) := by
  intro fields hfields
  obtain ⟨day, -, rfl⟩ := List.mem_map.mp hfields
  exact ds.ordered_record day

/-- A record has the value of each column. -/
theorem WellFormed.find?_record (hds : ds.WellFormed) (hc : c ∈ ds.columns) (day : Nat) :
    Keyed.find? c.name (ds.record day) = some (c.values.getD day "") := by
  refine Keyed.find?_ofList_of_mem ?_ (List.mem_map_of_mem hc)
  rw [List.map_map]
  exact hds.distinct

theorem WellFormed.getElem?_values (hds : ds.WellFormed) (hc : c ∈ ds.columns)
    (hday : day < ds.length) : c.values[day]? = some (c.values.getD day "") := by
  have hlt : day < c.values.length := by rwa [hds.aligned c hc]
  rw [List.getD_eq_getElem?_getD, List.getElem?_eq_getElem hlt, Option.getD_some]

theorem WellFormed.find?_date_record (hds : ds.WellFormed) (day : Nat) :
    Keyed.find? dateColumn (ds.record day) = some (ds.dates.getD day "") := by
  obtain ⟨c, hc, hname, hdates, -⟩ := hds.exists_dated (f := Column.values)
  rw [← hname, hds.find?_record hc, hdates]

theorem WellFormed.accepts_records (hds : ds.WellFormed) :
    ∀ fields ∈ ds.records, ds.Accepts fields := by
  intro fields hfields
  obtain ⟨day, hday, rfl⟩ := List.mem_map.mp hfields
  have hlt : day < ds.dates.length := List.mem_range.mp hday
  refine ⟨⟨ds.dates[day], List.getElem_mem hlt, ?_⟩, fun name hname => .inr ?_⟩
  · rw [hds.find?_date_record, List.getD_eq_getElem?_getD, List.getElem?_eq_getElem hlt,
      Option.getD_some]
  · simpa [columnNames, Function.comp_def] using Keyed.mem_keys_ofList hname

theorem WellFormed.dayOf?_record (hds : ds.WellFormed) (day : Nat) :
    ds.dayOf? (ds.record day) = ds.dates.findIdx? (· = ds.dates.getD day "") := by
  rw [dayOf?, hds.find?_date_record, Option.bind_some]

/-- The value that the records give for a day is that of the last day whose date first stands
there. -/
theorem WellFormed.lastGiven?_records (hds : ds.WellFormed) (hc : c ∈ ds.columns) (day : Nat) :
    ds.lastGiven? ds.records c.name day =
      (((List.range ds.length).filter fun i =>
        ds.dates.findIdx? (· = ds.dates.getD i "") = some day).getLast?).map
          fun i => c.values.getD i "" := by
  have hfind : Keyed.find? c.name ∘ ds.record = some ∘ fun i => c.values.getD i "" :=
    funext fun i => hds.find?_record hc i
  have hday : (fun fields => decide (ds.dayOf? fields = some day)) ∘ ds.record =
      fun i => decide (ds.dates.findIdx? (· = ds.dates.getD i "") = some day) := by
    funext i
    simp only [Function.comp_apply, hds.dayOf?_record]
  rw [lastGiven?, records, List.filter_map, List.filterMap_map, hfind, List.filterMap_eq_map, hday,
    List.getLast?_map]

/-! The days that share a date -/

theorem findIdx?_date_iff {dates : List String} :
    dates.findIdx? (· = date) = some day ↔
      dates[day]? = some date ∧ ∀ earlier < day, dates[earlier]? ≠ some date := by
  rw [List.findIdx?_eq_some_iff_getElem]
  constructor
  · rintro ⟨hlt, hdate, hbefore⟩
    refine ⟨List.getElem?_eq_some_iff.mpr ⟨hlt, of_decide_eq_true hdate⟩, ?_⟩
    intro earlier hearlier hsame
    obtain ⟨_, hsame⟩ := List.getElem?_eq_some_iff.mp hsame
    exact hbefore earlier hearlier (decide_eq_true hsame)
  · rintro ⟨hdate, hbefore⟩
    obtain ⟨hlt, hdate⟩ := List.getElem?_eq_some_iff.mp hdate
    refine ⟨hlt, decide_eq_true hdate, fun earlier hearlier hsame => ?_⟩
    exact hbefore earlier hearlier
      (List.getElem?_eq_some_iff.mpr ⟨Nat.lt_trans hearlier hlt, of_decide_eq_true hsame⟩)

/-- Each date of the dataset has a first and a last day. -/
theorem exists_daysOf (h : date ∈ ds.dates) : ∃ first last, ds.DaysOf date first last := by
  obtain ⟨first, hfirst⟩ : ∃ first, ds.dates.findIdx? (· = date) = some first := by
    refine Option.ne_none_iff_exists'.mp fun hnone => ?_
    simpa using List.findIdx?_eq_none_iff.mp hnone date h
  obtain ⟨hat, hbefore⟩ := findIdx?_date_iff.mp hfirst
  have hrange {day : Nat} (hday : ds.dates[day]? = some date) : day < ds.length :=
    (List.getElem?_eq_some_iff.mp hday).1
  obtain ⟨last, hlast⟩ : ∃ last,
      ((List.range ds.length).filter fun i => ds.dates[i]? = some date).getLast? = some last := by
    refine Option.ne_none_iff_exists'.mp fun hnone => ?_
    refine List.filter_eq_nil_iff.mp (List.getLast?_eq_none_iff.mp hnone) first ?_ ?_
    · exact List.mem_range.mpr (hrange hat)
    · exact decide_eq_true hat
  obtain ⟨⟨-, hlastAt⟩, hafter⟩ := getLast?_filter_range.mp hlast
  refine ⟨first, last, hat, of_decide_eq_true hlastAt, fun day hday => ⟨?_, ?_⟩⟩
  · by_contra hlt
    exact hbefore day (Nat.not_le.mp hlt) hday
  · by_contra hlt
    exact of_decide_eq_false (hafter day (Nat.not_le.mp hlt) (hrange hday)) hday

/-- The first day with a date gets the values of the last one. -/
theorem WellFormed.overwritten_records_first (hds : ds.WellFormed) (hc : c ∈ ds.columns)
    (hdays : ds.DaysOf date first last) :
    (ds.overwritten ds.records c)[first]? = c.values[last]? := by
  by_cases hname : c.name = dateColumn
  · rw [overwritten_date _ hname, hds.values_eq_dates hc hname, hdays.first_at, hdays.last_at]
  · obtain ⟨hlast, hdate⟩ := List.getElem?_eq_some_iff.mp hdays.last_at
    have hfirst : first < ds.length := (List.getElem?_eq_some_iff.mp hdays.first_at).1
    have hgiven : ds.given? ds.records c.name first = some (c.values.getD last "") := by
      rw [given?_eq_lastGiven? ds.ordered_records hname, hds.lastGiven?_records hc,
        getLast?_filter_range.mpr, Option.map_some]
      refine ⟨⟨hlast, decide_eq_true (findIdx?_date_iff.mpr ?_)⟩, fun i hi hlt => ?_⟩
      · rw [List.getD_eq_getElem?_getD, hdays.last_at, Option.getD_some]
        exact ⟨hdays.first_at, fun earlier hlt heq =>
          absurd (hdays.within earlier heq).1 (Nat.not_le.mpr hlt)⟩
      · refine decide_eq_false fun hfound => Nat.not_le.mpr hi (hdays.within i ?_).2
        have hsame := hdays.first_at.symm.trans (findIdx?_date_iff.mp hfound).1
        rw [hsame, List.getD_eq_getElem?_getD, List.getElem?_eq_getElem hlt, Option.getD_some]
    have hlength := hds.aligned c hc
    rw [Dataset.overwritten, List.getElem?_mapIdx, hgiven, hds.getElem?_values hc hlast,
      List.getElem?_eq_getElem (hlength.symm ▸ hfirst)]
    rfl

/-- A day keeps its values if there is an earlier one with its date. -/
theorem WellFormed.overwritten_records_later (hds : ds.WellFormed) (hc : c ∈ ds.columns)
    {earlier : Nat} (hlt : earlier < day) (hsame : ds.dates[earlier]? = ds.dates[day]?) :
    (ds.overwritten ds.records c)[day]? = c.values[day]? := by
  by_cases hname : c.name = dateColumn
  · rw [overwritten_date _ hname]
  · have hnone : ((List.range ds.length).filter fun i =>
        ds.dates.findIdx? (· = ds.dates.getD i "") = some day) = [] := by
      refine List.filter_eq_nil_iff.mpr fun i _ hfound => ?_
      obtain ⟨hday, hbefore⟩ := findIdx?_date_iff.mp (of_decide_eq_true hfound)
      exact hbefore earlier hlt (hsame.trans hday)
    rw [Dataset.overwritten, List.getElem?_mapIdx, given?_eq_lastGiven? ds.ordered_records hname,
      hds.lastGiven?_records hc, hnone]
    simp

/-! Merging them again -/

theorem withValues_eq_self_iff {f : Column → List String} :
    ds.withValues f = ds ↔ ∀ c ∈ ds.columns, f c = c.values := by
  have hself : ds.withValues Column.values = ds := by simp [withValues]
  constructor
  · intro h c hc
    have hcolumns := congrArg Dataset.columns (h.trans hself.symm)
    exact congrArg Column.values (List.map_inj_left.mp hcolumns c hc)
  · intro h
    refine Eq.trans ?_ hself
    rw [withValues, withValues, List.map_congr_left fun c hc => by rw [h c hc]]

theorem WellFormed.overwritten_records_eq_iff (hds : ds.WellFormed) :
    (∀ c ∈ ds.columns, ds.overwritten ds.records c = c.values) ↔
      ∀ date first last, ds.DaysOf date first last →
        ∀ c ∈ ds.columns, c.values[first]? = c.values[last]? := by
  constructor
  · intro h date first last hdays c hc
    rw [← hds.overwritten_records_first hc hdays, h c hc]
  · intro h c hc
    refine List.ext_getElem? fun day => ?_
    cases hday : ds.dates[day]? with
    | none =>
      have hout : c.values.length ≤ day := by
        rw [hds.aligned c hc]
        exact List.getElem?_eq_none_iff.mp hday
      simp [Dataset.overwritten, hout]
    | some date =>
      obtain ⟨first, last, hdays⟩ := exists_daysOf (List.mem_of_getElem? hday)
      rcases Nat.lt_or_eq_of_le (hdays.within day hday).1 with hlt | rfl
      · exact hds.overwritten_records_later hc hlt (hdays.first_at.trans hday.symm)
      · rw [hds.overwritten_records_first hc hdays, h date _ last hdays c hc]

theorem DaysOf.eq_of_nodup (h : ds.DaysOf date first last) (hdistinct : ds.dates.Nodup) :
    first = last := by
  have hlt := (List.getElem?_eq_some_iff.mp h.first_at).1
  exact (List.getElem?_inj hlt hdistinct).mp (h.first_at.trans h.last_at.symm)

/-- The records of a dataset that was loaded can be merged into it again: each of its days counts,
and the columns keep their names and the dates. The first day with a date gets the values of the
last day with that date, and each other day keeps its own. So the dataset stays as it was if and
only if the first and the last day with a date always agree, and it does if no date is repeated. -/
theorem updateRecords_records
    (h : (∃ text, parse text = .ok ds) ∨ ∃ columns, ofColumns columns = .ok ds) :
    ∃ edited, ds.updateRecords ds.records = .ok (edited, ds.length) ∧
      edited.columnNames = ds.columnNames ∧ edited.dates = ds.dates ∧
      (∀ row values, ds.column? row = some values →
        ∃ merged, edited.column? row = some merged ∧ merged.length = values.length ∧
          (∀ date first last, ds.DaysOf date first last → merged[first]? = values[last]?) ∧
          ∀ earlier day : Nat, earlier < day → ds.dates[earlier]? = ds.dates[day]? →
            merged[day]? = values[day]?) ∧
      (edited = ds ↔ ∀ date first last, ds.DaysOf date first last →
        ∀ c ∈ ds.columns, c.values[first]? = c.values[last]?) ∧
      (ds.dates.Nodup → edited = ds) := by
  have hds : ds.WellFormed := by
    rcases h with ⟨text, h⟩ | ⟨columns, h⟩
    · exact (of_parse h).1
    · exact (ofColumns_eq_ok_iff.mp h).2
  obtain ⟨edited, n, hupdate⟩ := exists_updateRecords_iff.mpr hds.accepts_records
  have hdates := (column?_of_updateRecords ds.ordered_records hupdate).1
  obtain ⟨rfl, rfl, -⟩ := updateRecords_eq_ok hupdate
  have hlength : ds.records.length = ds.length := by simp [records]
  have hsame := withValues_eq_self_iff.trans hds.overwritten_records_eq_iff
  refine ⟨_, hlength ▸ hupdate, columnNames_withValues, ?_, ?_, hsame, fun hdistinct => ?_⟩
  · rw [dates, hdates, dates]
  · intro row values hvalues
    obtain ⟨c, hfind, rfl⟩ := Option.map_eq_some_iff.mp hvalues
    have hc := List.mem_of_find?_eq_some hfind
    refine ⟨ds.overwritten ds.records c, ?_, ?_, ?_, ?_⟩
    · rw [column?_withValues, hfind, Option.map_some]
    · rw [Dataset.overwritten, List.length_mapIdx]
    · exact fun date first last hdays => hds.overwritten_records_first hc hdays
    · exact fun earlier day hlt hdate => hds.overwritten_records_later hc hlt hdate
  · refine hsame.mpr fun date first last hdays c _ => ?_
    rw [hdays.eq_of_nodup hdistinct]

/-- Of two days with the same date, the first one gets the value of the second one. -/
theorem updateRecords_records_repeated_date :
    let ds : Dataset := ⟨[⟨"date", ["2024-04-24", "2024-04-24"]⟩, ⟨"t", ["1", "2"]⟩]⟩
    parse "date: 2024-04-24 2024-04-24\nt: 1 2\n" = .ok ds ∧
      ∃ edited, ds.updateRecords ds.records = .ok (edited, 2) ∧ edited ≠ ds ∧
        edited.column? "t" = some ["2", "2"] := by
  intro ds
  exact ⟨rfl, _, rfl, by decide, rfl⟩

theorem updateRecords_records_two_dates :
    let ds : Dataset := ⟨[⟨"t", ["1", "2"]⟩, ⟨"date", ["2024-04-25", "2024-04-24"]⟩]⟩
    ofColumns ds.columns = .ok ds ∧ ds.updateRecords ds.records = .ok (ds, 2) := by
  intro ds
  have hload : ofColumns ds.columns = .ok ds := rfl
  obtain ⟨edited, hupdate, -, -, -, -, hsame⟩ := updateRecords_records (.inr ⟨_, hload⟩)
  exact ⟨hload, hupdate.trans (by rw [hsame (by decide)]; rfl)⟩

end Dataset

end Almanac
