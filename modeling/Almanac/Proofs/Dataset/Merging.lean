import Almanac.Proofs.Dataset.Edits
import Almanac.Proofs.Keyed

/-!
Merging a batch of records. A batch is accepted if all of its records are, and then each cell gets
the value of the last record that has one for it. Otherwise the first record that cannot be merged
says what is wrong, and nothing is merged, because all records are looked at before the first value
is written.
-/

namespace Almanac

namespace Dataset

variable {ds edited : Dataset} {fields : Record} {batch : List Record} {number day : Nat}
  {e : DatasetError}

/-! Records that can be merged, and what is wrong with the others -/

def Unknown (ds : Dataset) (name : String) : Prop := name ≠ dateColumn ∧ name ∉ ds.columnNames

/-- A record whose date is one of the dataset and whose other fields name columns. -/
structure Accepts (ds : Dataset) (fields : Record) : Prop where
  dated : ∃ date ∈ ds.dates, Keyed.find? dateColumn fields = some date
  known : ∀ name ∈ fields.map Prod.fst, name = dateColumn ∨ name ∈ ds.columnNames

structure FirstUnknown (ds : Dataset) (fields : Record) (name : String) : Prop where
  given : name ∈ fields.map Prod.fst
  unknown : ds.Unknown name
  first : ∀ other ∈ fields.map Prod.fst, ds.Unknown other →
    other = name ∨ Keyed.precedes name.toList other.toList = true

instance (name : String) : Decidable (ds.Unknown name) := inferInstanceAs (Decidable (_ ∧ _))

instance (fields : Record) : Decidable (ds.Accepts fields) :=
  decidable_of_iff
    ((∃ date ∈ ds.dates, Keyed.find? dateColumn fields = some date) ∧
      ∀ name ∈ fields.map Prod.fst, name = dateColumn ∨ name ∈ ds.columnNames)
    ⟨fun h => ⟨h.1, h.2⟩, fun h => ⟨h.dated, h.known⟩⟩

instance (fields : Record) (name : String) : Decidable (ds.FirstUnknown fields name) :=
  decidable_of_iff
    (name ∈ fields.map Prod.fst ∧ ds.Unknown name ∧
      ∀ other ∈ fields.map Prod.fst, ds.Unknown other →
        other = name ∨ Keyed.precedes name.toList other.toList = true)
    ⟨fun h => ⟨h.1, h.2.1, h.2.2⟩, fun h => ⟨h.given, h.unknown, h.first⟩⟩

/-- The error that a record with some number gives: it has no date, or else one that is not in
the dataset, or else a field without a column. -/
inductive Offends (ds : Dataset) (number : Nat) (fields : Record) : DatasetError → Prop
  | undated (hnone : Keyed.find? dateColumn fields = none) :
    Offends ds number fields (.missingRecordDate number)
  | absent {date : String} (hdate : Keyed.find? dateColumn fields = some date)
    (habsent : date ∉ ds.dates) : Offends ds number fields (.dateNotFound date)
  | unknown {date name : String} (hdate : Keyed.find? dateColumn fields = some date)
    (hpresent : date ∈ ds.dates) (hname : ds.FirstUnknown fields name) :
    Offends ds number fields (.unknownRow name)

theorem firstUnknown_cons_of_known {name value other : String} {fields : Record}
    (h : ¬ ds.Unknown name) :
    ds.FirstUnknown ((name, value) :: fields) other ↔ ds.FirstUnknown fields other := by
  have hne {other : String} (hother : ds.Unknown other) : other ≠ name :=
    fun heq => h (heq ▸ hother)
  constructor
  · intro hcons
    obtain ⟨hgiven, hunknown, hfirst⟩ := hcons
    refine ⟨?_, hunknown, fun another hmem => hfirst another (List.mem_cons_of_mem _ hmem)⟩
    exact (List.mem_cons.mp hgiven).resolve_left (hne hunknown)
  · intro hrest
    obtain ⟨hgiven, hunknown, hfirst⟩ := hrest
    refine ⟨List.mem_cons_of_mem _ hgiven, hunknown, fun another hmem hanother => ?_⟩
    exact hfirst another ((List.mem_cons.mp hmem).resolve_left (hne hanother)) hanother

theorem firstUnknown_cons_of_unknown {name value other : String} {fields : Record}
    (hkeys : Keyed.Ordered (((name, value) :: fields).map Prod.fst)) (h : ds.Unknown name) :
    ds.FirstUnknown ((name, value) :: fields) other ↔ other = name := by
  have hafter : ∀ another ∈ fields.map Prod.fst,
      Keyed.precedes name.toList another.toList = true := (List.pairwise_cons.mp hkeys).1
  constructor
  · intro hcons
    obtain ⟨hgiven, hunknown, hfirst⟩ := hcons
    rcases List.mem_cons.mp hgiven with heq | hmem
    · exact heq
    · rcases hfirst name List.mem_cons_self h with heq | hbefore
      · exact heq.symm
      · rw [Keyed.precedes_asymm (hafter other hmem)] at hbefore
        cases hbefore
  · rintro rfl
    refine ⟨List.mem_cons_self, h, fun another hmem _ => ?_⟩
    exact (List.mem_cons.mp hmem).imp id (hafter another)

theorem fieldEdits_eq_error_iff {fields : Record} (hkeys : Keyed.Ordered (fields.map Prod.fst)) :
    ds.fieldEdits day fields = .error e ↔
      ∃ name, ds.FirstUnknown fields name ∧ e = .unknownRow name := by
  induction fields with
  | nil =>
    constructor
    · intro h
      cases h
    · intro h
      obtain ⟨_, hname, _⟩ := h
      cases hname.given
  | cons field rest ih =>
    obtain ⟨name, value⟩ := field
    by_cases hunknown : ds.Unknown name
    · have hedits : ds.fieldEdits day ((name, value) :: rest) = .error (.unknownRow name) := by
        rw [fieldEdits, if_neg hunknown.1, if_neg (by simpa using hunknown.2)]
      rw [hedits]
      simp only [firstUnknown_cons_of_unknown hkeys hunknown, exists_eq_left, Except.error.injEq]
      exact eq_comm
    · have hedits : ds.fieldEdits day ((name, value) :: rest) = .error e ↔
          ds.fieldEdits day rest = .error e := by
        rw [fieldEdits]
        split
        · exact Iff.rfl
        · rename_i hdate
          have hknown : name ∈ ds.columnNames := by
            by_contra hmissing
            exact hunknown ⟨hdate, hmissing⟩
          rw [if_pos (by simpa using hknown), map_eq_error_iff]
      rw [hedits, ih hkeys.tail]
      simp only [firstUnknown_cons_of_known hunknown]

theorem exists_fieldEdits_iff :
    (∃ edits, ds.fieldEdits day fields = .ok edits) ↔
      ∀ name ∈ fields.map Prod.fst, name = dateColumn ∨ name ∈ ds.columnNames := by
  induction fields with
  | nil => simp [fieldEdits]
  | cons field rest ih =>
    obtain ⟨name, value⟩ := field
    rw [List.map_cons, List.forall_mem_cons, ← ih, fieldEdits]
    by_cases hdate : name = dateColumn
    · simp [hdate]
    · by_cases hknown : name ∈ ds.columnNames <;> simp [hdate, hknown, map_eq_ok_iff]

theorem dateIndex_iso_eq_error_iff {date : String} :
    ds.dateIndex (.iso date) = .error e ↔ date ∉ ds.dates ∧ e = .dateNotFound date := by
  have hmissing : DateToken.position? ds.dates (.iso date) = none ↔ date ∉ ds.dates := by
    simpa [DateToken.position?] using List.forall_mem_ne'
  rw [← hmissing, dateIndex]
  cases DateToken.position? ds.dates (.iso date) <;> simp [eq_comm]

theorem exists_dateIndex_iso_iff {date : String} :
    (∃ day, ds.dateIndex (.iso date) = .ok day) ↔ date ∈ ds.dates := by
  cases hday : ds.dateIndex (.iso date) with
  | ok day =>
    simp only [Except.ok.injEq, exists_eq', true_iff]
    by_contra habsent
    rw [dateIndex_iso_eq_error_iff.mpr ⟨habsent, rfl⟩] at hday
    cases hday
  | error cause => simp [(dateIndex_iso_eq_error_iff.mp hday).1]

theorem recordEdits_eq_error_iff (hkeys : Keyed.Ordered (fields.map Prod.fst)) :
    ds.recordEdits number fields = .error e ↔ ds.Offends number fields e := by
  unfold recordEdits
  cases hdate : Keyed.find? dateColumn fields with
  | none =>
    constructor
    · intro h
      obtain rfl := Except.error.inj h
      exact .undated hdate
    · intro h
      cases h with
      | undated => rfl
      | absent hother | unknown hother => cases hdate.symm.trans hother
  | some date =>
    simp only [bind_eq_error_iff, dateIndex_iso_eq_error_iff, fieldEdits_eq_error_iff hkeys]
    constructor
    · intro h
      rcases h with ⟨habsent, rfl⟩ | ⟨day, hday, name, hname, rfl⟩
      · exact .absent hdate habsent
      · exact .unknown hdate (exists_dateIndex_iso_iff.mp ⟨day, hday⟩) hname
    · intro h
      cases h with
      | undated hnone => cases hdate.symm.trans hnone
      | absent hother habsent =>
        obtain rfl := Option.some.inj (hdate.symm.trans hother)
        exact .inl ⟨habsent, rfl⟩
      | unknown hother hpresent hname =>
        obtain rfl := Option.some.inj (hdate.symm.trans hother)
        obtain ⟨day, hday⟩ := exists_dateIndex_iso_iff.mpr hpresent
        exact .inr ⟨day, hday, _, hname, rfl⟩

theorem exists_recordEdits_iff :
    (∃ edits, ds.recordEdits number fields = .ok edits) ↔ ds.Accepts fields := by
  unfold recordEdits
  cases hdate : Keyed.find? dateColumn fields with
  | none =>
    constructor
    · intro h
      obtain ⟨_, hedits⟩ := h
      cases hedits
    · intro h
      obtain ⟨date, _, hother⟩ := h.dated
      cases hdate.symm.trans hother
  | some date =>
    simp only [bind_eq_ok_iff]
    constructor
    · intro h
      obtain ⟨edits, day, hday, hfields⟩ := h
      exact ⟨⟨date, exists_dateIndex_iso_iff.mp ⟨day, hday⟩, hdate⟩,
        exists_fieldEdits_iff.mp ⟨edits, hfields⟩⟩
    · intro h
      obtain ⟨other, hpresent, hother⟩ := h.dated
      obtain rfl := Option.some.inj (hdate.symm.trans hother)
      obtain ⟨day, hday⟩ := exists_dateIndex_iso_iff.mpr hpresent
      obtain ⟨edits, hedits⟩ := exists_fieldEdits_iff.mpr h.known
      exact ⟨edits, day, hday, hedits⟩

/-! Batches -/

theorem exists_batchEdits_iff :
    (∃ edits, ds.batchEdits number batch = .ok edits) ↔ ∀ fields ∈ batch, ds.Accepts fields := by
  induction batch generalizing number with
  | nil => simp [batchEdits]
  | cons fields rest ih =>
    rw [List.forall_mem_cons, ← @exists_recordEdits_iff ds fields number, ← @ih (number + 1)]
    simp only [batchEdits, bind_eq_ok_iff]
    constructor
    · intro h
      obtain ⟨_, own, hown, more, hmore, _⟩ := h
      exact ⟨⟨own, hown⟩, more, hmore⟩
    · intro h
      obtain ⟨⟨own, hown⟩, more, hmore⟩ := h
      exact ⟨own ++ more, own, hown, more, hmore, rfl⟩

/-- A batch fails as the first of its records does that cannot be merged. -/
theorem batchEdits_eq_error_iff
    (hkeys : ∀ fields ∈ batch, Keyed.Ordered (fields.map Prod.fst)) :
    ds.batchEdits number batch = .error e ↔
      ∃ before fields after, batch = before ++ fields :: after ∧
        (∀ r ∈ before, ds.Accepts r) ∧ ds.Offends (number + before.length) fields e := by
  induction batch generalizing number with
  | nil => simp [batchEdits]
  | cons fields rest ih =>
    obtain ⟨hfields, hrest⟩ := List.forall_mem_cons.mp hkeys
    simp only [batchEdits, bind_eq_error_iff, recordEdits_eq_error_iff hfields, ih hrest]
    constructor
    · intro h
      rcases h with hhere | ⟨own, hown, ⟨before, other, after, rfl, hbefore, hoffends⟩ | hdone⟩
      · exact ⟨[], fields, rest, rfl, List.forall_mem_nil _, hhere⟩
      · refine ⟨fields :: before, other, after, rfl, ?_, ?_⟩
        · exact List.forall_mem_cons.mpr ⟨exists_recordEdits_iff.mp ⟨own, hown⟩, hbefore⟩
        · rw [List.length_cons, Nat.add_comm before.length, ← Nat.add_assoc]
          exact hoffends
      · obtain ⟨_, _, hpure⟩ := hdone
        cases hpure
    · intro h
      obtain ⟨before, other, after, hsplit, hbefore, hoffends⟩ := h
      cases before with
      | nil =>
        obtain ⟨rfl, rfl⟩ := List.cons.inj hsplit
        exact .inl hoffends
      | cons first before =>
        obtain ⟨rfl, rfl⟩ := List.cons.inj hsplit
        obtain ⟨haccepts, hbefore⟩ := List.forall_mem_cons.mp hbefore
        obtain ⟨own, hown⟩ := (@exists_recordEdits_iff ds fields number).mpr haccepts
        refine .inr ⟨own, hown, .inl ⟨before, other, after, rfl, hbefore, ?_⟩⟩
        rw [List.length_cons, Nat.add_comm before.length, ← Nat.add_assoc] at hoffends
        exact hoffends

/-! The values that a batch gives -/

/-- The value for a row in the last record that has one for it, of those whose date first stands
on the day. -/
def lastGiven? (ds : Dataset) (batch : List Record) (row : String) (day : Nat) : Option String :=
  ((batch.filter fun fields => ds.dayOf? fields = some day).filterMap (Keyed.find? row)).getLast?

theorem lastGiven?_append_singleton (batch : List Record) (fields : Record) (row : String) :
    ds.lastGiven? (batch ++ [fields]) row day =
      if ds.dayOf? fields = some day then (Keyed.find? row fields).or (ds.lastGiven? batch row day)
      else ds.lastGiven? batch row day := by
  unfold lastGiven?
  rw [List.filter_append, List.filterMap_append, List.getLast?_append]
  split
  · rename_i hday
    rw [List.filter_cons_of_pos (by simpa using hday)]
    cases hfind : Keyed.find? row fields <;> simp [hfind]
  · rename_i hday
    rw [List.filter_cons_of_neg (by simpa using hday)]
    simp

/-- The edits of a record write its own values on its own day. -/
theorem lastValue?_editsOf (hkeys : Keyed.Ordered (fields.map Prod.fst)) {row : String}
    (hrow : row ≠ dateColumn) :
    lastValue? (ds.editsOf fields) row day =
      if ds.dayOf? fields = some day then Keyed.find? row fields else none := by
  unfold editsOf lastValue?
  cases hday : ds.dayOf? fields with
  | none => simp
  | some other =>
    dsimp only
    rw [List.filter_map, List.filter_filter, List.getLast?_map, Option.map_map]
    by_cases hsame : other = day
    · have hown : (fields.filter fun field =>
            decide (field.1 = row ∧ other = day) && decide (field.1 ≠ dateColumn)) =
          fields.filter fun field => field.1 = row := by
        refine List.filter_congr fun field _ => ?_
        by_cases hfield : field.1 = row <;> simp [hfield, hrow, hsame]
      rw [if_pos (congrArg some hsame), ← Keyed.getLast?_filter_of_ordered hkeys row, ← hown]
      rfl
    · rw [if_neg (by simpa using hsame), List.filter_eq_nil_iff.mpr (by simp [hsame])]
      rfl

/-- Of a row other than the dates, a batch gives the values of its last records. -/
theorem given?_eq_lastGiven? (hkeys : ∀ fields ∈ batch, Keyed.Ordered (fields.map Prod.fst))
    {row : String} (hrow : row ≠ dateColumn) :
    ds.given? batch row day = ds.lastGiven? batch row day := by
  induction batch using List.reverseRecOn with
  | nil => rfl
  | append_singleton batch fields ih =>
    have hbatch := ih fun r hr => hkeys r (List.mem_append_left _ hr)
    have hfields := hkeys fields (by simp)
    have hgiven : ds.given? (batch ++ [fields]) row day =
        (lastValue? (ds.editsOf fields) row day).or (ds.given? batch row day) := by
      rw [given?, List.flatMap_append, lastValue?_append, List.flatMap_singleton]
      rfl
    rw [hgiven, hbatch, lastValue?_editsOf hfields hrow, lastGiven?_append_singleton]
    split
    · rfl
    · rw [Option.none_or]

theorem updateRecords_eq_map (ds : Dataset) (batch : List Record) :
    ds.updateRecords batch =
      (ds.batchEdits 0 batch).map fun edits => (edits.foldl applyEdit ds, batch.length) := by
  unfold updateRecords
  cases ds.batchEdits 0 batch <;> rfl

theorem exists_updateRecords_iff :
    (∃ edited n, ds.updateRecords batch = .ok (edited, n)) ↔
      ∀ fields ∈ batch, ds.Accepts fields := by
  rw [← @exists_batchEdits_iff ds batch 0]
  simp [updateRecords_eq_map, map_eq_ok_iff]

theorem updateRecords_eq_error_iff
    (hkeys : ∀ fields ∈ batch, Keyed.Ordered (fields.map Prod.fst)) :
    ds.updateRecords batch = .error e ↔
      ∃ before fields after, batch = before ++ fields :: after ∧
        (∀ r ∈ before, ds.Accepts r) ∧ ds.Offends before.length fields e := by
  rw [updateRecords_eq_map, map_eq_error_iff, batchEdits_eq_error_iff hkeys]
  simp only [Nat.zero_add]

/-- A batch that is accepted leaves the dates and gives every other row its last values. -/
theorem column?_of_updateRecords
    (hkeys : ∀ fields ∈ batch, Keyed.Ordered (fields.map Prod.fst)) {n : Nat}
    (h : ds.updateRecords batch = .ok (edited, n)) :
    edited.column? dateColumn = ds.column? dateColumn ∧
      ∀ row, row ≠ dateColumn → edited.column? row = (ds.column? row).map fun values =>
        values.mapIdx fun day old => (ds.lastGiven? batch row day).getD old := by
  obtain ⟨rfl, -, -⟩ := updateRecords_eq_ok h
  have hcolumn {row : String} {f : List String → List String}
      (hf : ∀ c, c.name = row → ds.overwritten batch c = f c.values) :
      (ds.withValues (ds.overwritten batch)).column? row = (ds.column? row).map f := by
    rw [column?_withValues, column?]
    cases hfind : ds.columns.find? fun c => c.name = row with
    | none => rfl
    | some c =>
      have hname : c.name = row := by simpa using List.find?_some hfind
      simp [hf c hname]
  constructor
  · have hdates := hcolumn (f := id) fun c hname => overwritten_date batch hname
    rw [hdates, Option.map_id_fun, id]
  · intro row hrow
    refine hcolumn fun c hname => ?_
    simp only [overwritten, hname, given?_eq_lastGiven? hkeys hrow]

/-! Merging in place -/

def consult {α : Type} (f : Dataset → Except DatasetError α) : EStateM DatasetError Dataset α :=
  fun ds =>
    match f ds with
    | .ok a => .ok a ds
    | .error e => .error e ds

def collectEdits (number : Nat) : List Record → EStateM DatasetError Dataset (List Edit)
  | [] => pure []
  | fields :: rest => do
    let edits ← consult fun ds => ds.recordEdits number fields
    let more ← collectEdits (number + 1) rest
    pure (edits ++ more)

/-- Merges a batch into the dataset in use. All edits are collected before the first is made. -/
def updateInPlace (batch : List Record) : EStateM DatasetError Dataset Nat := do
  let edits ← collectEdits 0 batch
  edits.forM fun e => modify fun ds => ds.applyEdit e
  pure batch.length

theorem collectEdits_eq (number : Nat) (batch : List Record) :
    collectEdits number batch = consult fun ds => ds.batchEdits number batch := by
  induction batch generalizing number with
  | nil => rfl
  | cons fields rest ih =>
    rw [collectEdits, ih]
    funext ds
    simp only [batchEdits, consult, bind, EStateM.bind, Except.bind]
    cases ds.recordEdits number fields with
    | error e => rfl
    | ok own =>
      dsimp only
      cases ds.batchEdits (number + 1) rest <;> rfl

theorem run_forM_modify (edits : List Edit) (ds : Dataset) :
    (edits.forM fun e => modify fun ds => ds.applyEdit e :
      EStateM DatasetError Dataset PUnit).run ds = .ok ⟨⟩ (edits.foldl applyEdit ds) := by
  induction edits generalizing ds with
  | nil => rfl
  | cons e edits ih => exact ih (ds.applyEdit e)

theorem run_updateInPlace (ds : Dataset) (batch : List Record) :
    (updateInPlace batch).run ds =
      match ds.updateRecords batch with
      | .ok (edited, n) => .ok n edited
      | .error e => .error e ds := by
  rw [updateInPlace, updateRecords_eq_map, collectEdits_eq]
  simp only [EStateM.run, bind, EStateM.bind, consult]
  cases ds.batchEdits 0 batch with
  | error e => rfl
  | ok edits =>
    have hmade := run_forM_modify edits ds
    rw [EStateM.run] at hmade
    dsimp only
    rw [hmade]
    rfl

/-- Merging a batch of records with their keys in order, exactly. It is accepted if every record
has a date of the dataset and no field without a column. Then the number of records comes back, the
columns stay with their names and their order, the dates stay, and each other value is the one of
the last record that gives one for its row and whose date first stands on its day, or the old one
if there is none. The error of a batch that is refused is that of its first record that cannot be
merged, and the dataset in use stays as it was. -/
theorem updateRecords_exactly
    (hkeys : ∀ fields ∈ batch, Keyed.Ordered (fields.map Prod.fst)) :
    ((∃ edited n, ds.updateRecords batch = .ok (edited, n)) ↔
      ∀ fields ∈ batch, ds.Accepts fields) ∧
    (∀ edited n, ds.updateRecords batch = .ok (edited, n) →
      (updateInPlace batch).run ds = .ok n edited ∧
      n = batch.length ∧ edited.columnNames = ds.columnNames ∧
      edited.column? dateColumn = ds.column? dateColumn ∧
      ∀ row, row ≠ dateColumn → edited.column? row = (ds.column? row).map fun values =>
        values.mapIdx fun day old => (ds.lastGiven? batch row day).getD old) ∧
    (∀ e, ds.updateRecords batch = .error e ↔
      ∃ before fields after, batch = before ++ fields :: after ∧
        (∀ r ∈ before, ds.Accepts r) ∧ ds.Offends before.length fields e) ∧
    (∀ e, ds.updateRecords batch = .error e → (updateInPlace batch).run ds = .error e ds) := by
  refine ⟨exists_updateRecords_iff, ?_, fun e => updateRecords_eq_error_iff hkeys, ?_⟩
  · intro edited n h
    have hrun := run_updateInPlace ds batch
    rw [h] at hrun
    obtain ⟨hdates, hrows⟩ := column?_of_updateRecords hkeys h
    obtain ⟨rfl, hcount, -⟩ := updateRecords_eq_ok h
    exact ⟨hrun, hcount, columnNames_withValues, hdates, hrows⟩
  · intro e h
    rw [run_updateInPlace, h]

/-- Two records for one date, which stands on two days, and then a record with two unknown
fields after one that could be merged. -/
theorem updateRecords_exactly_repeated_date :
    let ds : Dataset :=
      ⟨[⟨"date", ["2024-04-24", "2024-04-25", "2024-04-25"]⟩, ⟨"t", ["70", "75", "80"]⟩]⟩
    let merged : List Record :=
      [[("date", "2024-04-25"), ("t", "71")], [("date", "2024-04-25"), ("t", "72")],
        [("date", "2024-04-25")]]
    let refused : List Record :=
      [[("date", "2024-04-24"), ("t", "71")], [("date", "2024-04-25"), ("s", "1"), ("u", "2")]]
    (∃ edited, ds.updateRecords merged = .ok (edited, 3) ∧
        edited.column? "t" = some ["70", "72", "80"]) ∧
      (updateInPlace refused).run ds = .error (.unknownRow "s") ds := by
  intro ds merged refused
  have hmerged : ∀ fields ∈ merged, Keyed.Ordered (fields.map Prod.fst) := by decide
  have hrefused : ∀ fields ∈ refused, Keyed.Ordered (fields.map Prod.fst) := by decide
  obtain ⟨hsuccess, hvalues, -⟩ := @updateRecords_exactly ds merged hmerged
  obtain ⟨-, -, herror, hkept⟩ := @updateRecords_exactly ds refused hrefused
  obtain ⟨edited, n, hupdate⟩ := hsuccess.mpr (by decide)
  obtain ⟨-, rfl, -, -, hrows⟩ := hvalues edited n hupdate
  have hfirst : ds.FirstUnknown [("date", "2024-04-25"), ("s", "1"), ("u", "2")] "s" := by decide
  have hfails : ds.updateRecords refused = .error (.unknownRow "s") :=
    (herror _).mpr ⟨[_], _, [], rfl, by decide, .unknown rfl (by decide) hfirst⟩
  exact ⟨⟨edited, hupdate, hrows "t" (by decide)⟩, hkept _ hfails⟩

end Dataset

end Almanac
