import Almanac.Proofs.Dataset.Edits

/-!
Which datasets can come about. A dataset is empty at first, or it is made of columns or read from
a text; later another one replaces it, records are merged into it and days are removed. Exactly
the well-formed datasets come about in this way. Edits leave the names of the columns alone, and
a batch that is merged writes only into cells that there are.
-/

namespace Almanac.Dataset

variable {ds edited : Dataset}

/-! Merging as writing into cells -/

structure Write where
  column : Nat
  day : Nat
  value : String

/-- There is such a cell, and it is none of the dates. -/
def Write.InBounds (ds : Dataset) (w : Write) : Prop :=
  ∃ c, ds.columns[w.column]? = some c ∧ c.name ≠ dateColumn ∧ w.day < c.values.length

def write (ds : Dataset) (w : Write) : Dataset :=
  ⟨ds.columns.modify w.column fun c => { c with values := c.values.set w.day w.value }⟩

def writeOf (ds : Dataset) (e : Edit) : Write := ⟨ds.columnNames.idxOf e.row, e.day, e.value⟩

theorem columnNames_applyEdit (e : Edit) : (ds.applyEdit e).columnNames = ds.columnNames := by
  have hname (c : Column) : (c.edit e).name = c.name := by
    unfold Column.edit
    split <;> rfl
  simp [columnNames, applyEdit, hname]

theorem columns_getElem?_of_mem {row : String} (hrow : row ∈ ds.columnNames) :
    ∃ c, ds.columns[ds.columnNames.idxOf row]? = some c ∧ c.name = row := by
  have hlt := List.idxOf_lt_length_of_mem hrow
  have hat : ds.columnNames[ds.columnNames.idxOf row]? = some row := by
    rw [List.getElem?_eq_getElem hlt, List.getElem_idxOf hlt]
  rw [columnNames, List.getElem?_map] at hat
  obtain ⟨c, hc, hname⟩ := Option.map_eq_some_iff.mp hat
  exact ⟨c, hc, hname⟩

/-- With distinct names an edit reaches one column only. -/
theorem applyEdit_eq_write (hdistinct : ds.columnNames.Nodup) {e : Edit}
    (hrow : e.row ∈ ds.columnNames) : ds.applyEdit e = ds.write (ds.writeOf e) := by
  obtain ⟨target, htarget, hname⟩ := columns_getElem?_of_mem hrow
  unfold applyEdit write writeOf
  rw [Dataset.mk.injEq]
  refine List.ext_getElem? fun i => ?_
  rw [List.getElem?_map, List.getElem?_modify]
  cases hc : ds.columns[i]? with
  | none => rfl
  | some c =>
    by_cases hi : ds.columnNames.idxOf e.row = i
    · rw [hi, hc] at htarget
      obtain rfl := Option.some.inj htarget
      simp [Column.edit, hname, hi]
    · have hother : c.name ≠ e.row := by
        intro heq
        apply hi
        have hat : ds.columnNames[i]? = some e.row := by
          rw [columnNames, List.getElem?_map, hc, Option.map_some, heq]
        obtain ⟨hlt, hget⟩ := List.getElem?_eq_some_iff.mp hat
        rw [← hget]
        exact hdistinct.idxOf_getElem i hlt
      simp [Column.edit, hother, hi]

theorem foldl_applyEdit_eq_writes {edits : List Edit} (hdistinct : ds.columnNames.Nodup)
    (hrows : ∀ e ∈ edits, e.row ∈ ds.columnNames) :
    edits.foldl applyEdit ds = (edits.map ds.writeOf).foldl write ds := by
  -- The names stay, so the positions may be looked up once, before anything is written.
  induction edits generalizing ds with
  | nil => rfl
  | cons e edits ih =>
    obtain ⟨hrow, hothers⟩ := List.forall_mem_cons.mp hrows
    have hnames : (ds.applyEdit e).columnNames = ds.columnNames := columnNames_applyEdit e
    have hpositions : (ds.applyEdit e).writeOf = ds.writeOf := by
      funext other
      unfold writeOf
      rw [hnames]
    rw [List.foldl_cons, ih (hnames ▸ hdistinct) (hnames ▸ hothers), hpositions,
      applyEdit_eq_write hdistinct hrow]
    rfl

def writesOf (ds : Dataset) (batch : List Record) : List Write :=
  (batch.flatMap ds.editsOf).map ds.writeOf

/-- A batch that is accepted is written into cells that there are, one value after another. -/
theorem updateRecords_eq_writes (hds : ds.WellFormed) {batch : List Record} {n : Nat}
    (h : ds.updateRecords batch = .ok (edited, n)) :
    edited = (ds.writesOf batch).foldl write ds ∧ ∀ w ∈ ds.writesOf batch, w.InBounds ds := by
  obtain ⟨edits, hedits, hdone⟩ := bind_eq_ok_iff.mp h
  obtain ⟨rfl, _⟩ := Prod.mk.inj (Except.ok.inj hdone)
  obtain ⟨rfl, hcovers⟩ := batchEdits_eq_ok hedits
  refine ⟨foldl_applyEdit_eq_writes hds.distinct fun e he => (hcovers e he).known, ?_⟩
  intro w hw
  obtain ⟨e, he, rfl⟩ := List.mem_map.mp hw
  have hcovered := hcovers e he
  obtain ⟨c, hc, hname⟩ := columns_getElem?_of_mem hcovered.known
  refine ⟨c, hc, hname ▸ hcovered.undated, ?_⟩
  rw [hds.aligned c (List.mem_of_getElem? hc)]
  exact hcovered.day

/-! The datasets in use -/

def replaceAll (_ other : Dataset) : Dataset := other

def afterUpdate (ds : Dataset) (batch : List Record) : Dataset :=
  match ds.updateRecords batch with
  | .ok (edited, _) => edited
  | .error _ => ds

/-- The datasets that can come about. -/
inductive Reachable : Dataset → Prop
  | empty : Reachable Dataset.empty
  | ofColumns {columns : List Column} {ds : Dataset} (h : Dataset.ofColumns columns = .ok ds) :
    Reachable ds
  | parse {text : String} {ds : Dataset} (h : Dataset.parse text = .ok ds) : Reachable ds
  | parseUpload {text : String} {ds : Dataset} (h : Dataset.parseUpload text = .ok ds) :
    Reachable ds
  | replaceAll {ds other : Dataset} (hds : Reachable ds) (hother : Reachable other) :
    Reachable (ds.replaceAll other)
  | afterUpdate {ds : Dataset} (hds : Reachable ds) (batch : List Record) :
    Reachable (ds.afterUpdate batch)
  | removeDates {ds : Dataset} (hds : Reachable ds) (listed : List String) :
    Reachable (ds.removeDates listed).1

/-- One edit of the dataset in use. -/
inductive EditsTo (ds : Dataset) : Dataset → Prop
  | update (batch : List Record) : EditsTo ds (ds.afterUpdate batch)
  | remove (listed : List String) : EditsTo ds (ds.removeDates listed).1

theorem wellFormed_empty : empty.WellFormed := (check_eq_ok_iff empty).mp rfl

theorem of_parseUpload {text : String} (h : parseUpload text = .ok ds) : parse text = .ok ds := by
  unfold parseUpload at h
  split at h
  · cases h
  · rename_i read hread
    split at h
    · cases h
    · rw [hread, Except.ok.inj h]

theorem afterUpdate_cases (ds : Dataset) (batch : List Record) :
    ds.afterUpdate batch = ds ∨
      ∃ n, ds.updateRecords batch = .ok (ds.afterUpdate batch, n) := by
  unfold afterUpdate
  cases ds.updateRecords batch with
  | error e => exact .inl rfl
  | ok result => exact .inr ⟨result.2, rfl⟩

theorem WellFormed.afterUpdate (hds : ds.WellFormed) (batch : List Record) :
    (ds.afterUpdate batch).WellFormed := by
  rcases afterUpdate_cases ds batch with hsame | ⟨n, hupdate⟩
  · exact hsame.symm ▸ hds
  · obtain ⟨hwritten, _⟩ := updateRecords_eq_ok hupdate
    rw [hwritten]
    exact hds.overwritten batch

theorem EditsTo.columnNames_eq (h : ds.EditsTo edited) : edited.columnNames = ds.columnNames := by
  cases h with
  | update batch =>
    rcases afterUpdate_cases ds batch with hsame | ⟨n, hupdate⟩
    · rw [hsame]
    · obtain ⟨hwritten, _⟩ := updateRecords_eq_ok hupdate
      rw [hwritten, columnNames_withValues]
  | remove listed => rw [removeDates_eq, columnNames_withValues]

theorem Reachable.wellFormed (h : Reachable ds) : ds.WellFormed := by
  induction h with
  | empty => exact wellFormed_empty
  | ofColumns h => exact (ofColumns_eq_ok_iff.mp h).2
  | parse h => exact (of_parse h).1
  | parseUpload h => exact (of_parse (of_parseUpload h)).1
  | replaceAll _ _ _ ih => exact ih
  | afterUpdate _ batch ih => exact ih.afterUpdate batch
  | removeDates _ listed ih => exact ih.removeDates listed

/-- Exactly the well-formed datasets can come about. Along any number of edits the columns keep
their names and their order, and a batch that is accepted is written into cells that there are. -/
theorem reachable_iff_wellFormed :
    (∀ ds, Reachable ds ↔ ds.WellFormed) ∧
      (∀ ds edited, Relation.ReflTransGen EditsTo ds edited →
        edited.columnNames = ds.columnNames) ∧
      ∀ ds batch edited n, Reachable ds → ds.updateRecords batch = .ok (edited, n) →
        edited = (ds.writesOf batch).foldl write ds ∧ ∀ w ∈ ds.writesOf batch, w.InBounds ds := by
  refine ⟨fun ds => ⟨Reachable.wellFormed, fun hds => ?_⟩, ?_, ?_⟩
  · exact .ofColumns (ofColumns_eq_ok_iff.mpr ⟨rfl, hds⟩)
  · intro ds edited hedits
    induction hedits with
    | refl => rfl
    | tail _ hedit ih => exact hedit.columnNames_eq.trans ih
  · intro ds batch edited n hds hupdate
    exact updateRecords_eq_writes hds.wellFormed hupdate

/-- A batch is merged into two days, another one is refused, and then the first day goes. -/
theorem wellFormed_of_three_edits :
    let days : Dataset := ⟨[⟨"date", ["2024-04-24", "2024-04-25"]⟩, ⟨"t", ["70", "75"]⟩]⟩
    let merged := days.afterUpdate [[("date", "2024-04-25"), ("t", "80")]]
    let kept := merged.afterUpdate [[("date", "2024-04-25"), ("u", "1")]]
    (kept.removeDates ["2024-04-24"]).1 = ⟨[⟨"date", ["2024-04-25"]⟩, ⟨"t", ["80"]⟩]⟩ ∧
      (kept.removeDates ["2024-04-24"]).1.WellFormed ∧
      (kept.removeDates ["2024-04-24"]).1.columnNames = days.columnNames := by
  intro days merged kept
  have hdays : ofColumns days.columns = .ok days := rfl
  have hreachable : Reachable (kept.removeDates ["2024-04-24"]).1 :=
    .removeDates (.afterUpdate (.afterUpdate (.ofColumns hdays) _) _) _
  have hedits : Relation.ReflTransGen EditsTo days (kept.removeDates ["2024-04-24"]).1 :=
    .tail (.tail (.tail .refl (.update _)) (.update _)) (.remove _)
  exact ⟨rfl, (reachable_iff_wellFormed.1 _).mp hreachable,
    reachable_iff_wellFormed.2.1 _ _ hedits⟩

end Almanac.Dataset
