import Almanac.Proofs.Dataset.Reimport
import Mathlib.Data.List.GetD

/-!
Removing days by their dates. The dates decide once which days stay, and every column keeps its
values on those days. As all columns have a value for each date, no column is shifted against
another one, and a day stays or goes as a whole: all days with a date that is listed go, and a
date that is none of the dataset, or is listed twice, makes no difference.
-/

namespace Almanac

theorem map_getD_range {α : Type} (values : List α) (fallback : α) :
    (List.range values.length).map (fun i => values.getD i fallback) = values := by
  refine List.ext_getElem (by simp) fun i _ hi => ?_
  simp [List.getElem?_eq_getElem hi]

namespace Dataset

variable {ds : Dataset} {dates listed values : List String}

/-! What is kept of one column -/

theorem keepDays_cons (date value : String) :
    keepDays (date :: dates) listed (value :: values) =
      if listed.contains date then keepDays dates listed values
      else value :: keepDays dates listed values := by
  unfold keepDays
  rw [List.zip_cons_cons, List.filter_cons]
  cases listed.contains date <;> rfl

/-- What is kept for one list and then for another is what is kept for both at once. The dates are
filtered along with the values, so the second list meets the values with their own dates. -/
theorem keepDays_keepDays (more : List String) (h : values.length = dates.length) :
    keepDays (keepDays dates listed dates) more (keepDays dates listed values) =
      keepDays dates (listed ++ more) values := by
  induction dates generalizing values with
  | nil =>
    obtain rfl := List.eq_nil_of_length_eq_zero h
    rfl
  | cons date dates ih =>
    obtain ⟨value, values, rfl⟩ := List.exists_cons_of_length_eq_add_one h
    have hrest := ih (Nat.succ.inj h)
    simp only [keepDays_cons, List.contains_append]
    cases hlisted : listed.contains date with
    | true => simpa using hrest
    | false => simp [keepDays_cons, hrest]

def keepMarked : List Bool → List String → List String
  | [], values => values
  | _ :: _, [] => []
  | flag :: flags, value :: values =>
    if flag then value :: keepMarked flags values else keepMarked flags values

theorem keepMarked_eq_keepDays (h : values.length = dates.length) :
    keepMarked (dates.map fun date => !listed.contains date) values =
      keepDays dates listed values := by
  induction dates generalizing values with
  | nil =>
    obtain rfl := List.eq_nil_of_length_eq_zero h
    rfl
  | cons date dates ih =>
    obtain ⟨value, values, rfl⟩ := List.exists_cons_of_length_eq_add_one h
    rw [List.map_cons, keepMarked, keepDays_cons, ih (Nat.succ.inj h)]
    cases listed.contains date <;> rfl

/-! The days that stay -/

def keptDays (ds : Dataset) (listed : List String) : List Nat :=
  (List.range ds.length).filter fun day => !listed.contains (ds.dates.getD day "")

theorem keepDays_eq_map_keptDays (h : values.length = ds.length) :
    keepDays ds.dates listed values =
      (ds.keptDays listed).map fun day => values.getD day "" := by
  have hvalues : (List.range ds.length).map (fun day => values.getD day "") = values := by
    rw [← h, map_getD_range]
  have hdates : (List.range ds.length).map (fun day => ds.dates.getD day "") = ds.dates :=
    map_getD_range ds.dates ""
  calc
    keepDays ds.dates listed values =
        keepDays ((List.range ds.length).map fun day => ds.dates.getD day "") listed
          ((List.range ds.length).map fun day => values.getD day "") := by
      rw [hvalues, hdates]
    _ = (ds.keptDays listed).map fun day => values.getD day "" := by
      rw [keepDays, List.zip_map', List.filter_map, List.map_map]
      rfl

/-- The dates are filtered like any other column. -/
theorem WellFormed.dates_removeDates (hds : ds.WellFormed) :
    (ds.removeDates listed).1.dates = keepDays ds.dates listed ds.dates := by
  obtain ⟨dated, -, -, hvalues, hdates⟩ :=
    hds.exists_dated (f := fun c => keepDays ds.dates listed c.values)
  rw [removeDates_eq, hdates, hvalues]

theorem WellFormed.length_removeDates (hds : ds.WellFormed) :
    (ds.removeDates listed).1.length = (ds.keptDays listed).length := by
  rw [length, hds.dates_removeDates, keepDays_eq_map_keptDays rfl, List.length_map]

/-- All columns are read at the same day that stays. -/
theorem WellFormed.record_removeDates (hds : ds.WellFormed) (place : Nat) :
    (ds.removeDates listed).1.record place =
      ds.record ((ds.keptDays listed).getD place ds.length) := by
  rw [removeDates_eq, Dataset.withValues, record, record, List.map_map]
  refine congrArg Keyed.ofList (List.map_congr_left fun c hc => ?_)
  have hout : c.values.getD ds.length "" = "" :=
    List.getD_eq_default _ _ (Nat.le_of_eq (hds.aligned c hc))
  have hread := List.getD_map (l := ds.keptDays listed) (d := ds.length) (n := place)
    fun day => c.values.getD day ""
  rw [hout] at hread
  simp only [Function.comp_apply, keepDays_eq_map_keptDays (hds.aligned c hc), hread]

theorem WellFormed.records_removeDates (hds : ds.WellFormed) :
    (ds.removeDates listed).1.records = (ds.keptDays listed).map ds.record := by
  rw [records, hds.length_removeDates]
  calc
    (List.range (ds.keptDays listed).length).map (ds.removeDates listed).1.record =
        ((List.range (ds.keptDays listed).length).map
          fun place => (ds.keptDays listed).getD place ds.length).map ds.record := by
      rw [List.map_map]
      exact List.map_congr_left fun place _ => hds.record_removeDates place
    _ = (ds.keptDays listed).map ds.record := by rw [map_getD_range]

/-- The records of the days that stay are those without a date that is listed. -/
theorem WellFormed.filter_records (hds : ds.WellFormed) :
    (ds.records.filter fun fields =>
        (Keyed.find? dateColumn fields).any fun date => !listed.contains date) =
      (ds.keptDays listed).map ds.record := by
  rw [records, List.filter_map, keptDays]
  refine congrArg (List.map ds.record) (List.filter_congr fun day _ => ?_)
  rw [Function.comp_apply, hds.find?_date_record, Option.any_some]

/-! The days that go -/

theorem WellFormed.removed_add_length (hds : ds.WellFormed) (listed : List String) :
    (ds.removeDates listed).2 + (ds.removeDates listed).1.length = ds.length := by
  have hlength : (ds.removeDates listed).1.length =
      ds.dates.countP fun date => !listed.contains date := by
    rw [length, hds.dates_removeDates, length_keepDays rfl]
  rw [hlength, length, List.length_eq_countP_add_countP fun date => listed.contains date]
  simp only [Dataset.removeDates, Bool.not_eq_true, Bool.decide_eq_false]

theorem WellFormed.removeDates_removeDates (hds : ds.WellFormed) (listed more : List String) :
    ((ds.removeDates listed).1.removeDates more).1 = (ds.removeDates (listed ++ more)).1 := by
  rw [removeDates_eq more, hds.dates_removeDates, removeDates_eq, removeDates_eq]
  unfold Dataset.withValues
  rw [List.map_map]
  refine congrArg Dataset.mk (List.map_congr_left fun c hc => ?_)
  simp only [Function.comp_apply, keepDays_keepDays more (hds.aligned c hc)]

/-- Removal as a pass over each column: every date gives a flag, once, and each column replays the
flags against its own values. -/
def removeByMarks (ds : Dataset) (listed : List String) : Dataset × Nat :=
  let kept := ds.dates.map fun date => !listed.contains date
  (ds.withValues fun c => keepMarked kept c.values, kept.countP fun flag => !flag)

theorem WellFormed.removeByMarks_eq (hds : ds.WellFormed) (listed : List String) :
    ds.removeByMarks listed = ds.removeDates listed := by
  refine Prod.ext ?_ ?_
  · refine congrArg Dataset.mk (List.map_congr_left fun c hc => ?_)
    simp only [keepMarked_eq_keepDays (hds.aligned c hc)]
  · simp only [removeByMarks, Dataset.removeDates, List.countP_map, Function.comp_def, Bool.not_not]

/-- Removing dates drops whole days and nothing else. The records that are left are those whose
date is not listed, in their order and with all their fields, under the same column names. The
number that is returned counts the days that are gone. It does not matter whether dates are
removed at once or one list after another, nor that each column is filtered for itself. -/
theorem removeDates_drops_days (hds : ds.WellFormed) (listed : List String) :
    (ds.removeDates listed).1.records = (ds.records.filter fun fields =>
        (Keyed.find? dateColumn fields).any fun date => !listed.contains date) ∧
      (ds.removeDates listed).1.columnNames = ds.columnNames ∧
      (ds.removeDates listed).2 + (ds.removeDates listed).1.length = ds.length ∧
      (∀ more,
        ((ds.removeDates listed).1.removeDates more).1 = (ds.removeDates (listed ++ more)).1 ∧
        (ds.removeDates listed).2 + ((ds.removeDates listed).1.removeDates more).2 =
          (ds.removeDates (listed ++ more)).2) ∧
      ds.removeByMarks listed = ds.removeDates listed := by
  refine ⟨hds.records_removeDates.trans hds.filter_records.symm, columnNames_withValues,
    hds.removed_add_length listed, fun more => ?_, hds.removeByMarks_eq listed⟩
  have hsame := hds.removeDates_removeDates listed more
  refine ⟨hsame, ?_⟩
  -- Each count is what its dataset lacks, and both ways end in the same dataset.
  have hfirst := hds.removed_add_length listed
  have hsecond := (hds.removeDates listed).removed_add_length more
  have hboth := hds.removed_add_length (listed ++ more)
  rw [hsame] at hsecond
  omega

/-- Two days share a date, and the list names this date twice beside one that no day has. -/
theorem removeDates_drops_days_shared_date :
    let ds : Dataset := ⟨[⟨"t", ["1", "2", "3", "4"]⟩,
      ⟨"date", ["2024-04-24", "2024-04-25", "2024-04-24", "2024-04-26"]⟩]⟩
    let listed := ["2024-04-24", "2030-01-01", "2024-04-24"]
    ds.WellFormed ∧
      (ds.removeDates listed).1.records =
        [[("date", "2024-04-25"), ("t", "2")], [("date", "2024-04-26"), ("t", "4")]] ∧
      (ds.removeDates listed).1.columnNames = ["t", "date"] ∧
      (ds.removeDates listed).2 = 2 ∧
      ((ds.removeDates listed).1.removeDates ["2024-04-26"]).1 =
        (ds.removeDates (listed ++ ["2024-04-26"])).1 := by
  intro ds listed
  have hds : ds.WellFormed := (ofColumns_eq_ok_iff.mp (rfl : ofColumns ds.columns = .ok ds)).2
  obtain ⟨hrecords, hnames, -, hmore, -⟩ := removeDates_drops_days hds listed
  exact ⟨hds, hrecords.trans (by decide), hnames, by decide, (hmore ["2024-04-26"]).1⟩

end Dataset

end Almanac
