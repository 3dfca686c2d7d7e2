import Almanac.Dataset.Records
import Almanac.Proofs.Dataset.WrittenForm
import Mathlib.Data.List.Nodup
import Mathlib.Logic.Relation

/-!
What edits leave behind. A batch of records that is merged replaces, in each row and on each day,
the value by the last one that the batch gives for them, and nothing else. The dataset stays well
formed, but a value that is given need not be one word, and with one that is not, the written form
is no longer read back as the dataset that was written.
-/

namespace Almanac

def lastValue? (edits : List Edit) (row : String) (day : Nat) : Option String :=
  (edits.filter fun e => e.row = row ∧ e.day = day).getLast?.map Edit.value

theorem lastValue?_append (before after : List Edit) (row : String) (day : Nat) :
    lastValue? (before ++ after) row day =
      (lastValue? after row day).or (lastValue? before row day) := by
  unfold lastValue?
  rw [List.filter_append, List.getLast?_append, Option.map_or]

theorem lastValue?_append_singleton (edits : List Edit) (e : Edit) (row : String) (day : Nat) :
    lastValue? (edits ++ [e]) row day =
      if e.row = row ∧ e.day = day then some e.value else lastValue? edits row day := by
  rw [lastValue?_append]
  by_cases h : e.row = row ∧ e.day = day <;> simp [lastValue?, h]

theorem exists_of_lastValue? {edits : List Edit} {row value : String} {day : Nat}
    (h : lastValue? edits row day = some value) :
    ∃ e ∈ edits, e.row = row ∧ e.day = day ∧ e.value = value := by
  obtain ⟨e, he, hvalue⟩ := Option.map_eq_some_iff.mp h
  obtain ⟨hmem, hedit⟩ := List.mem_filter.mp (List.mem_of_getLast? he)
  obtain ⟨hrow, hday⟩ := of_decide_eq_true hedit
  exact ⟨e, hmem, hrow, hday, hvalue⟩

theorem mapIdx_eq_self {α : Type} {values : List α} {f : Nat → α → α}
    (h : ∀ i old, f i old = old) : values.mapIdx f = values := by
  refine List.ext_getElem? fun i => ?_
  rw [List.getElem?_mapIdx]
  cases values[i]? <;> simp [h]

/-- Where nothing is edited the values stay, and elsewhere the last edit counts. -/
theorem Column.foldl_edit (edits : List Edit) (c : Column) :
    edits.foldl (fun c e => c.edit e) c =
      { c with
        values := c.values.mapIdx fun day old => (lastValue? edits c.name day).getD old } := by
  induction edits using List.reverseRecOn with
  | nil =>
    have hsame : c.values.mapIdx (fun day old => (lastValue? [] c.name day).getD old) = c.values :=
      mapIdx_eq_self fun _ _ => rfl
    rw [hsame, List.foldl_nil]
  | append_singleton edits e ih =>
    rw [List.foldl_append, ih, List.foldl_cons, List.foldl_nil, Column.edit]
    by_cases hrow : c.name = e.row
    · rw [if_pos hrow, Column.mk.injEq]
      refine ⟨rfl, List.ext_getElem? fun day => ?_⟩
      simp only [List.getElem?_set, List.getElem?_mapIdx, List.length_mapIdx,
        lastValue?_append_singleton, hrow, true_and]
      by_cases hday : e.day = day
      · by_cases hlt : day < c.values.length
        · simp [hday, hlt]
        · simp [hday, hlt]
      · simp [hday]
    · rw [if_neg hrow]
      simp only [lastValue?_append_singleton, Ne.symm hrow, false_and, if_false]

namespace Dataset

variable {ds edited : Dataset}

theorem foldl_applyEdit (edits : List Edit) (ds : Dataset) :
    edits.foldl applyEdit ds =
      ⟨ds.columns.map fun c => edits.foldl (fun c e => c.edit e) c⟩ := by
  induction edits generalizing ds with
  | nil => simp
  | cons e edits ih =>
    rw [List.foldl_cons, ih]
    simp [applyEdit]

def dayOf? (ds : Dataset) (fields : Record) : Option Nat :=
  (Keyed.find? dateColumn fields).bind fun date => ds.dates.findIdx? (· = date)

def editsOf (ds : Dataset) (fields : Record) : List Edit :=
  match ds.dayOf? fields with
  | none => []
  | some day =>
    (fields.filter fun field => field.1 ≠ dateColumn).map fun field => ⟨field.1, day, field.2⟩

/-- The value that a batch gives for a row on a day, the last one if there are several. -/
def given? (ds : Dataset) (batch : List Record) (row : String) (day : Nat) : Option String :=
  lastValue? (batch.flatMap ds.editsOf) row day

structure Covers (ds : Dataset) (e : Edit) : Prop where
  known : e.row ∈ ds.columnNames
  undated : e.row ≠ dateColumn
  day : e.day < ds.length

theorem fieldEdits_eq_ok {day : Nat} {fields : Record} {edits : List Edit}
    (h : ds.fieldEdits day fields = .ok edits) :
    edits = (fields.filter fun field => field.1 ≠ dateColumn).map
        (fun field => ⟨field.1, day, field.2⟩) ∧
      ∀ e ∈ edits, e.row ∈ ds.columnNames ∧ e.row ≠ dateColumn ∧ e.day = day := by
  induction fields generalizing edits with
  | nil =>
    obtain rfl := Except.ok.inj h
    simp
  | cons field rest ih =>
    obtain ⟨name, value⟩ := field
    unfold fieldEdits at h
    split at h
    · rename_i hdate
      rw [List.filter_cons_of_neg (by simp [hdate])]
      exact ih h
    · rename_i hdate
      split at h
      · rename_i hknown
        obtain ⟨others, hothers, rfl⟩ := map_eq_ok_iff.mp h
        obtain ⟨hall, hcovered⟩ := ih hothers
        rw [List.filter_cons_of_pos (by simpa using hdate), List.map_cons, ← hall]
        refine ⟨rfl, List.forall_mem_cons.mpr ⟨⟨by simpa using hknown, hdate, rfl⟩, hcovered⟩⟩
      · cases h

theorem recordEdits_eq_ok {number : Nat} {fields : Record} {edits : List Edit}
    (h : ds.recordEdits number fields = .ok edits) :
    edits = ds.editsOf fields ∧ ∀ e ∈ edits, ds.Covers e := by
  unfold recordEdits at h
  split at h
  · cases h
  · rename_i date hdate
    obtain ⟨day, hday, hfields⟩ := bind_eq_ok_iff.mp h
    have hposition : ds.dates.findIdx? (· = date) = some day := dateIndex_eq_ok_iff.mp hday
    have hlt : day < ds.length := (List.findIdx?_eq_some_iff_getElem.mp hposition).1
    obtain ⟨hall, hcovered⟩ := fieldEdits_eq_ok hfields
    constructor
    · unfold editsOf dayOf?
      simp only [hdate, Option.bind_some, hposition, hall]
    · intro e he
      obtain ⟨hknown, hundated, rfl⟩ := hcovered e he
      exact ⟨hknown, hundated, hlt⟩

theorem batchEdits_eq_ok {number : Nat} {batch : List Record} {edits : List Edit}
    (h : ds.batchEdits number batch = .ok edits) :
    edits = batch.flatMap ds.editsOf ∧ ∀ e ∈ edits, ds.Covers e := by
  induction batch generalizing number edits with
  | nil =>
    obtain rfl := Except.ok.inj h
    simp
  | cons fields rest ih =>
    simp only [batchEdits, bind_eq_ok_iff] at h
    obtain ⟨own, hown, more, hmore, hdone⟩ := h
    obtain rfl := Except.ok.inj hdone
    obtain ⟨hfirst, hcovers⟩ := recordEdits_eq_ok hown
    obtain ⟨hrest, hothers⟩ := ih hmore
    constructor
    · rw [List.flatMap_cons, ← hfirst, ← hrest]
    · intro e he
      rcases List.mem_append.mp he with hmem | hmem
      · exact hcovers e hmem
      · exact hothers e hmem

def withValues (ds : Dataset) (f : Column → List String) : Dataset :=
  ⟨ds.columns.map fun c => { c with values := f c }⟩

def overwritten (ds : Dataset) (batch : List Record) (c : Column) : List String :=
  c.values.mapIdx fun day old => (ds.given? batch c.name day).getD old

/-- Merging a batch writes the last value that it gives for each row and day. -/
theorem updateRecords_eq_ok {batch : List Record} {n : Nat}
    (h : ds.updateRecords batch = .ok (edited, n)) :
    edited = ds.withValues (ds.overwritten batch) ∧ n = batch.length ∧
      ∀ e ∈ batch.flatMap ds.editsOf, ds.Covers e := by
  obtain ⟨edits, hedits, hdone⟩ := bind_eq_ok_iff.mp h
  obtain ⟨rfl, rfl⟩ := Prod.mk.inj (Except.ok.inj hdone)
  obtain ⟨rfl, hcovers⟩ := batchEdits_eq_ok hedits
  refine ⟨?_, rfl, hcovers⟩
  rw [foldl_applyEdit]
  simp only [Column.foldl_edit]
  rfl

/-! What other values leave as it was -/

section WithValues

variable {f : Column → List String}

theorem columnNames_withValues : (ds.withValues f).columnNames = ds.columnNames := by
  simp [columnNames, withValues]

theorem column?_withValues (name : String) :
    (ds.withValues f).column? name = (ds.columns.find? fun c => c.name = name).map f := by
  unfold column? withValues
  rw [List.find?_map, Option.map_map]
  rfl

theorem WellFormed.exists_dated (hds : ds.WellFormed) :
    ∃ c ∈ ds.columns, c.name = dateColumn ∧ c.values = ds.dates ∧
      (ds.withValues f).dates = f c := by
  obtain ⟨values, hvalues⟩ : ∃ values, ds.column? dateColumn = some values :=
    Option.ne_none_iff_exists'.mp fun hnone => column?_eq_none_iff.mp hnone hds.dated
  obtain ⟨c, hfind, rfl⟩ := Option.map_eq_some_iff.mp hvalues
  have hname : c.name = dateColumn := by simpa using List.find?_some hfind
  refine ⟨c, List.mem_of_find?_eq_some hfind, hname, (dates_of_column? hvalues).symm, ?_⟩
  apply dates_of_column?
  rw [column?_withValues, hfind, Option.map_some]

/-- Only one column has the name of the dates, and its values are the dates. -/
theorem WellFormed.values_eq_dates (hds : ds.WellFormed) {c : Column} (hc : c ∈ ds.columns)
    (hname : c.name = dateColumn) : c.values = ds.dates := by
  obtain ⟨dated, hdated, hdatedName, hdates, _⟩ := hds.exists_dated (f := Column.values)
  have hsame : c = dated :=
    List.inj_on_of_nodup_map hds.distinct hc hdated (hname.trans hdatedName.symm)
  rw [hsame, hdates]

theorem WellFormed.withValues (hds : ds.WellFormed)
    (hlength : ∀ c ∈ ds.columns, ∀ d ∈ ds.columns, (f c).length = (f d).length)
    (hiso : ∀ c ∈ ds.columns, c.name = dateColumn → ∀ date ∈ f c, isIsoDate date = true) :
    (ds.withValues f).WellFormed := by
  obtain ⟨dated, hdated, hname, _, hdates⟩ := hds.exists_dated (f := f)
  refine ⟨?_, ?_, ?_, ?_⟩
  · rw [columnNames_withValues]
    exact hds.distinct
  · rw [columnNames_withValues]
    exact hds.dated
  · intro c hc
    obtain ⟨old, hold, rfl⟩ := List.mem_map.mp hc
    rw [length, hdates]
    exact hlength old hold dated hdated
  · rw [hdates]
    exact hiso dated hdated hname

theorem Writable.withValues_iff (hwritable : ds.Writable) :
    (ds.withValues f).Writable ↔ ∀ c ∈ ds.columns, ∀ value ∈ f c, Column.IsValue value := by
  constructor
  · intro h c hc
    exact h.values _ (List.mem_map_of_mem hc)
  · intro h
    constructor
    · intro c hc
      obtain ⟨old, hold, rfl⟩ := List.mem_map.mp hc
      exact hwritable.names old hold
    · intro c hc
      obtain ⟨old, hold, rfl⟩ := List.mem_map.mp hc
      exact h old hold

end WithValues

/-! Merging records -/

theorem given?_dateColumn (batch : List Record) (day : Nat) :
    ds.given? batch dateColumn day = none := by
  by_contra hsome
  obtain ⟨value, hvalue⟩ := Option.ne_none_iff_exists'.mp hsome
  obtain ⟨e, he, hrow, _⟩ := exists_of_lastValue? hvalue
  obtain ⟨fields, _, hedit⟩ := List.mem_flatMap.mp he
  unfold editsOf at hedit
  split at hedit
  · cases hedit
  · obtain ⟨field, hfield, rfl⟩ := List.mem_map.mp hedit
    have hundated := (List.mem_filter.mp hfield).2
    simp only [decide_eq_true_eq] at hundated
    exact hundated hrow

theorem overwritten_date (batch : List Record) {c : Column} (h : c.name = dateColumn) :
    ds.overwritten batch c = c.values := by
  refine mapIdx_eq_self fun day old => ?_
  rw [h, given?_dateColumn, Option.getD_none]

theorem WellFormed.overwritten (hds : ds.WellFormed) (batch : List Record) :
    (ds.withValues (ds.overwritten batch)).WellFormed := by
  apply hds.withValues
  · intro c hc d hd
    simp only [Dataset.overwritten, List.length_mapIdx, hds.aligned c hc, hds.aligned d hd]
  · intro c hc hname date hdate
    rw [overwritten_date batch hname, hds.values_eq_dates hc hname] at hdate
    exact hds.iso date hdate

/-- What a batch gives is found in the dataset afterwards. -/
theorem exists_of_given? (hds : ds.WellFormed) {batch : List Record}
    (hcovers : ∀ e ∈ batch.flatMap ds.editsOf, ds.Covers e) {row value : String} {day : Nat}
    (h : ds.given? batch row day = some value) :
    ∃ c ∈ ds.columns, value ∈ ds.overwritten batch c := by
  obtain ⟨e, he, rfl, rfl, _⟩ := exists_of_lastValue? h
  have hcovered := hcovers e he
  obtain ⟨c, hc, hname⟩ := List.mem_map.mp hcovered.known
  have hlt : e.day < c.values.length := by
    rw [hds.aligned c hc]
    exact hcovered.day
  refine ⟨c, hc, List.mem_iff_getElem?.mpr ⟨e.day, ?_⟩⟩
  rw [Dataset.overwritten, List.getElem?_mapIdx, List.getElem?_eq_getElem hlt, hname, h]
  rfl

/-- A value after a batch is one that was there before or one that the batch gives. -/
theorem of_mem_overwritten {batch : List Record} {c : Column} {value : String}
    (h : value ∈ ds.overwritten batch c) :
    value ∈ c.values ∨ ∃ day, ds.given? batch c.name day = some value := by
  obtain ⟨day, hday⟩ := List.getElem?_of_mem h
  rw [overwritten, List.getElem?_mapIdx] at hday
  obtain ⟨old, hold, hvalue⟩ := Option.map_eq_some_iff.mp hday
  cases hgiven : ds.given? batch c.name day with
  | none =>
    rw [hgiven, Option.getD_none] at hvalue
    exact .inl (hvalue ▸ List.mem_of_getElem? hold)
  | some given =>
    rw [hgiven, Option.getD_some] at hvalue
    exact .inr ⟨day, hvalue ▸ hgiven⟩

theorem Writable.overwritten_iff (hwritable : ds.Writable) (hds : ds.WellFormed)
    {batch : List Record} (hcovers : ∀ e ∈ batch.flatMap ds.editsOf, ds.Covers e) :
    (ds.withValues (ds.overwritten batch)).Writable ↔
      ∀ row day value, ds.given? batch row day = some value → Column.IsValue value := by
  rw [hwritable.withValues_iff]
  constructor
  · intro h row day value hgiven
    obtain ⟨c, hc, hmem⟩ := exists_of_given? hds hcovers hgiven
    exact h c hc value hmem
  · intro h c hc value hvalue
    rcases of_mem_overwritten hvalue with hkept | ⟨day, hgiven⟩
    · exact hwritable.values c hc value hkept
    · exact h c.name day value hgiven

/-! Removing days -/

theorem removeDates_eq (listed : List String) :
    (ds.removeDates listed).1 = ds.withValues fun c => keepDays ds.dates listed c.values :=
  rfl

theorem mem_of_mem_keepDays {dates listed values : List String} {value : String}
    (h : value ∈ keepDays dates listed values) : value ∈ values := by
  obtain ⟨day, hday, rfl⟩ := List.mem_map.mp h
  exact (List.of_mem_zip (List.mem_filter.mp hday).1).1

/-- As many values are kept in each column as there are dates that are not listed. -/
theorem length_keepDays {dates listed values : List String}
    (h : values.length = dates.length) :
    (keepDays dates listed values).length = dates.countP fun date => !listed.contains date := by
  unfold keepDays
  rw [List.length_map, ← List.countP_eq_length_filter]
  calc
    (values.zip dates).countP (fun day => !listed.contains day.2) =
        ((values.zip dates).map Prod.snd).countP fun date => !listed.contains date := by
      rw [List.countP_map]
      rfl
    _ = dates.countP fun date => !listed.contains date := by
      rw [List.map_snd_zip (Nat.le_of_eq h.symm)]

theorem WellFormed.removeDates (hds : ds.WellFormed) (listed : List String) :
    (ds.removeDates listed).1.WellFormed := by
  rw [removeDates_eq]
  apply hds.withValues
  · intro c hc d hd
    rw [length_keepDays (hds.aligned c hc), length_keepDays (hds.aligned d hd)]
  · intro c hc hname date hdate
    have hmem := mem_of_mem_keepDays hdate
    rw [hds.values_eq_dates hc hname] at hmem
    exact hds.iso date hmem

theorem Writable.removeDates (hwritable : ds.Writable) (listed : List String) :
    (ds.removeDates listed).1.Writable := by
  rw [removeDates_eq, hwritable.withValues_iff]
  intro c hc value hvalue
  exact hwritable.values c hc value (mem_of_mem_keepDays hvalue)

/-! Reading back what was edited -/

theorem parse_toText_update_iff (h : parse ds.toText = .ok ds) {batch : List Record} {n : Nat}
    (hupdate : ds.updateRecords batch = .ok (edited, n)) :
    parse edited.toText = .ok edited ↔
      ∀ row day value, ds.given? batch row day = some value → Column.IsValue value := by
  obtain ⟨hwell, hwritable⟩ := parse_toText_eq_ok_iff.mp h
  obtain ⟨rfl, _, hcovers⟩ := updateRecords_eq_ok hupdate
  rw [parse_toText_eq_ok_iff, hwritable.overwritten_iff hwell hcovers]
  exact and_iff_right (hwell.overwritten batch)

theorem parse_toText_removeDates (h : parse ds.toText = .ok ds) (listed : List String) :
    parse (ds.removeDates listed).1.toText = .ok (ds.removeDates listed).1 := by
  obtain ⟨hwell, hwritable⟩ := parse_toText_eq_ok_iff.mp h
  exact parse_toText (hwell.removeDates listed) (hwritable.removeDates listed)

/-- An edit that gives nothing but words: days are removed, or records are merged of which each
value that counts is one word. -/
inductive WordEdit (ds : Dataset) : Dataset → Prop
  | update {batch : List Record} {edited : Dataset} {n : Nat}
    (hupdate : ds.updateRecords batch = .ok (edited, n))
    (hwords : ∀ row day value, ds.given? batch row day = some value → Column.IsValue value) :
    WordEdit ds edited
  | remove (listed : List String) : WordEdit ds (ds.removeDates listed).1

theorem parse_toText_of_wordEdit (h : parse ds.toText = .ok ds) (hedit : ds.WordEdit edited) :
    parse edited.toText = .ok edited := by
  cases hedit with
  | update hupdate hwords => exact (parse_toText_update_iff h hupdate).mpr hwords
  | remove listed => exact parse_toText_removeDates h listed

/-- A dataset that is read back as it was stays so when days are removed, and when records are
merged it does exactly if each value that they give is one word. The same holds along any number
of such edits, and whatever is uploaded is read back as it was. -/
theorem parse_toText_of_edits {ds : Dataset} (h : parse ds.toText = .ok ds) :
    (∀ batch edited n, ds.updateRecords batch = .ok (edited, n) →
      (parse edited.toText = .ok edited ↔
        ∀ row day value, ds.given? batch row day = some value → Column.IsValue value)) ∧
      (∀ listed, parse (ds.removeDates listed).1.toText = .ok (ds.removeDates listed).1) ∧
      (∀ edited, Relation.ReflTransGen WordEdit ds edited →
        parse edited.toText = .ok edited) ∧
      ∀ text uploaded, parseUpload text = .ok uploaded →
        parse uploaded.toText = .ok uploaded := by
  refine ⟨fun batch edited n hupdate => parse_toText_update_iff h hupdate,
    parse_toText_removeDates h, ?_, ?_⟩
  · intro edited hedits
    induction hedits with
    | refl => exact h
    | tail _ hedit ih => exact parse_toText_of_wordEdit ih hedit
  · intro text uploaded hupload
    unfold parseUpload at hupload
    split at hupload
    · cases hupload
    · rename_i read hread
      split at hupload
      · cases hupload
      · obtain rfl := Except.ok.inj hupload
        exact parse_toText_eq_ok_iff.mpr (of_parse hread)

def single (value : String) : Dataset := ⟨[⟨"date", ["2024-04-24"]⟩, ⟨"t", [value]⟩]⟩

/-- After a value of two words was merged, the line of its row has a value too many. -/
theorem parse_toText_two_words :
    parse (single "70").toText = .ok (single "70") ∧
      (single "70").updateRecords [[("date", "2024-04-24"), ("t", "7 5")]] =
        .ok (single "7 5", 1) ∧
      parse (single "7 5").toText = .error (.raggedColumn "t" 1 2) := by
  refine ⟨?_, ?_, ?_⟩
  · rfl
  · rfl
  · rfl

theorem parse_toText_one_word :
    (single "70").updateRecords [[("date", "2024-04-24"), ("t", "75")]] = .ok (single "75", 1) ∧
      parse (single "75").toText = .ok (single "75") := by
  have hupdate : (single "70").updateRecords [[("date", "2024-04-24"), ("t", "75")]] =
      .ok (single "75", 1) := by
    rfl
  refine ⟨hupdate, ((parse_toText_of_edits rfl).1 _ _ _ hupdate).mpr ?_⟩
  intro row day value hgiven
  obtain ⟨e, he, _, _, rfl⟩ := exists_of_lastValue? hgiven
  have hedits : [[("date", "2024-04-24"), ("t", "75")]].flatMap (single "70").editsOf =
      [⟨"t", 0, "75"⟩] := by
    rfl
  rw [hedits, List.mem_singleton] at he
  rw [he]
  constructor
  · simp
  · simp [Text.isBlank, Text.blankRanges]

end Dataset

end Almanac
