import Almanac.Proofs.Dataset.Selection
import Almanac.Proofs.Text.Pieces

/-!
Which datasets can be written and read back. The written form keeps names and values apart by a
colon, blanks and line feeds, so that a dataset is read back as it was exactly when it is well
formed, its names have none of the marks that end a name, and each of its values is one word.
Whatever is read from a text is such a dataset.
-/

namespace Almanac

structure Column.IsName (name : String) : Prop where
  nonempty : name.toList ≠ []
  trimmed : Text.trim name.toList = name.toList
  no_colon : ':' ∉ name.toList
  no_feed : '\n' ∉ name.toList

theorem Column.isName_iff {name : String} :
    IsName name ↔ name ≠ "" ∧
      ((∀ c ∈ name.toList.head?, Text.isBlank c = false) ∧
        ∀ c ∈ name.toList.getLast?, Text.isBlank c = false) ∧
      ':' ∉ name.toList ∧ '\n' ∉ name.toList := by
  rw [← Text.trim_eq_self_iff]
  constructor
  · intro h
    exact ⟨fun hempty => h.nonempty (by simp [hempty]), h.trimmed, h.no_colon, h.no_feed⟩
  · intro h
    obtain ⟨hne, htrimmed, hcolon, hfeed⟩ := h
    exact ⟨by simpa using hne, htrimmed, hcolon, hfeed⟩

def Column.IsValue (value : String) : Prop := Text.IsWord value.toList

theorem Column.isValue_iff {value : String} :
    IsValue value ↔ value ≠ "" ∧ ∀ c ∈ value.toList, Text.isBlank c = false := by
  unfold IsValue Text.IsWord
  rw [ne_eq, String.toList_eq_nil_iff]

namespace Dataset

/-- The written form keeps the names and the values apart. -/
structure Writable (ds : Dataset) : Prop where
  names : ∀ c ∈ ds.columns, Column.IsName c.name
  values : ∀ c ∈ ds.columns, ∀ value ∈ c.values, Column.IsValue value

/-! The check of a dataset -/

theorem firstRepeated?_eq_none_iff {seen names : List String} :
    firstRepeated? seen names = none ↔ (∀ name ∈ names, name ∉ seen) ∧ names.Nodup := by
  induction names generalizing seen with
  | nil => simp [firstRepeated?]
  | cons name rest ih =>
    by_cases hseen : name ∈ seen
    · simp [firstRepeated?, hseen]
    · rw [firstRepeated?, if_neg (by simpa using hseen), ih, List.nodup_cons,
        List.forall_mem_cons]
      simp only [List.mem_cons, not_or]
      constructor
      · intro h
        obtain ⟨hrest, hnodup⟩ := h
        exact ⟨⟨hseen, fun other hmem => (hrest other hmem).2⟩,
          fun hmem => (hrest name hmem).1 rfl, hnodup⟩
      · intro h
        obtain ⟨⟨_, hrest⟩, hnew, hnodup⟩ := h
        exact ⟨fun other hmem => ⟨fun heq => hnew (heq ▸ hmem), hrest other hmem⟩, hnodup⟩

theorem dates_of_column? {ds : Dataset} {dates : List String}
    (h : ds.column? dateColumn = some dates) : ds.dates = dates := by
  unfold Dataset.dates
  rw [h, Option.getD_some]

/-- The check passes exactly the well-formed datasets. -/
theorem check_eq_ok_iff (ds : Dataset) : ds.check = .ok () ↔ ds.WellFormed := by
  unfold check
  constructor
  · intro h
    split at h
    · cases h
    · rename_i hdistinct
      split at h
      · cases h
      · rename_i dates hdates
        split at h
        · cases h
        · rename_i hiso
          split at h
          · cases h
          · rename_i haligned
            have hds := dates_of_column? hdates
            refine ⟨(firstRepeated?_eq_none_iff.mp hdistinct).2, ?_, ?_, ?_⟩
            · by_contra habsent
              rw [column?_eq_none_iff.mpr habsent] at hdates
              cases hdates
            · intro c hc
              rw [length, hds]
              simpa using List.find?_eq_none.mp haligned c hc
            · intro date hdate
              rw [hds] at hdate
              simpa using List.find?_eq_none.mp hiso date hdate
  · intro h
    obtain ⟨dates, hdates⟩ : ∃ dates, ds.column? dateColumn = some dates :=
      Option.ne_none_iff_exists'.mp fun hnone => column?_eq_none_iff.mp hnone h.dated
    have hds := dates_of_column? hdates
    have hdistinct : firstRepeated? [] ds.columnNames = none :=
      firstRepeated?_eq_none_iff.mpr ⟨by simp, h.distinct⟩
    have hiso : (dates.find? fun date => !isIsoDate date) = none := by
      refine List.find?_eq_none.mpr fun date hdate => ?_
      simp [h.iso date (hds ▸ hdate)]
    have haligned : (ds.columns.find? fun c => c.values.length ≠ dates.length) = none := by
      refine List.find?_eq_none.mpr fun c hc => ?_
      have hlength := h.aligned c hc
      rw [length, hds] at hlength
      simp [hlength]
    simp only [hdistinct, hdates, hiso, haligned]

theorem ofColumns_eq_ok_iff {columns : List Column} {ds : Dataset} :
    ofColumns columns = .ok ds ↔ ds = ⟨columns⟩ ∧ ds.WellFormed := by
  unfold ofColumns
  constructor
  · intro h
    split at h
    · cases h
    · rename_i hcheck
      obtain rfl := Except.ok.inj h
      exact ⟨rfl, (check_eq_ok_iff _).mp hcheck⟩
  · intro h
    obtain ⟨rfl, hwell⟩ := h
    rw [(check_eq_ok_iff _).mpr hwell]

/-! Reading what was written -/

end Dataset

namespace Column

def line (c : Column) : List Char :=
  c.name.toList ++ ':' :: (c.values.map String.toList).flatMap (' ' :: ·)

theorem toText_toList (c : Column) : c.toText.toList = c.line ++ ['\n'] := by
  simp [toText, line, List.flatMap_map]

theorem not_mem_line {c : Column} (hname : IsName c.name) (hvalues : ∀ v ∈ c.values, IsValue v) :
    '\n' ∉ c.line := by
  have hblank : Text.isBlank '\n' = true := by decide
  intro hmem
  rcases List.mem_append.mp hmem with hin | hin
  · exact hname.no_feed hin
  · simp only [List.mem_cons, List.mem_flatMap, List.mem_map] at hin
    rcases hin with hcolon | ⟨_, ⟨v, hv, rfl⟩, hspace | hin⟩
    · exact absurd hcolon (by decide)
    · exact absurd hspace (by decide)
    · have hnot := (hvalues v hv).2 '\n' hin
      rw [hblank] at hnot
      cases hnot

theorem getLast?_line {c : Column} (hvalues : ∀ v ∈ c.values, IsValue v) :
    c.line.getLast? ≠ some '\r' := by
  have hblank : Text.isBlank '\r' = true := by decide
  unfold line
  rcases List.eq_nil_or_concat c.values with hnil | ⟨front, v, hconcat⟩
  · simp [hnil]
  · -- The last character is that of the last value.
    obtain ⟨hne, hword⟩ := hvalues v (by simp [hconcat])
    obtain ⟨final, hfinal⟩ := Option.ne_none_iff_exists'.mp (mt List.getLast?_eq_none_iff.mp hne)
    have hmem : final ∈ v.toList := List.mem_of_getLast? hfinal
    intro hreturn
    simp only [hconcat, List.concat_eq_append, List.map_append, List.map_cons, List.map_nil,
      List.flatMap_append, List.flatMap_singleton, List.getLast?_append,
      List.getLast?_cons, hfinal, Option.getD_some, Option.some_or, Option.some.injEq] at hreturn
    have hnot := hword final hmem
    rw [hreturn, hblank] at hnot
    cases hnot

end Column

namespace Dataset

theorem toText_toList (ds : Dataset) :
    ds.toText.toList = (ds.columns.map Column.line).flatMap (· ++ ['\n']) := by
  simp [toText, String.toList_join, List.flatMap_map, Column.toText_toList]

theorem readColumn_line {c : Column} (hname : Column.IsName c.name)
    (hvalues : ∀ v ∈ c.values, Column.IsValue v) (number : Nat) :
    readColumn number c.line = .ok (some c) := by
  have hfull : ¬ (Text.trim c.line).isEmpty := by
    rw [List.isEmpty_iff, Text.trim_eq_nil_iff]
    intro hblank
    exact absurd (hblank ':' (by simp [Column.line])) (by decide)
  have hwords : Text.words ((c.values.map String.toList).flatMap (' ' :: ·)) =
      c.values.map String.toList := by
    refine Text.words_flatMap_blank fun w hw => ?_
    obtain ⟨v, hv, rfl⟩ := List.mem_map.mp hw
    exact hvalues v hv
  have hnonempty : ¬ c.name.toList.isEmpty := by simpa using hname.nonempty
  unfold readColumn
  rw [if_neg hfull]
  unfold Column.line
  simp only [Text.cutAt_append hname.no_colon, hname.trimmed, if_neg hnonempty, hwords,
    List.map_map, String.ofList_toList]
  simp [Function.comp_def]

theorem readColumns_lines {columns : List Column} (hnames : ∀ c ∈ columns, Column.IsName c.name)
    (hvalues : ∀ c ∈ columns, ∀ v ∈ c.values, Column.IsValue v) (number : Nat) :
    readColumns number (columns.map Column.line) = .ok columns := by
  induction columns generalizing number with
  | nil => rfl
  | cons c rest ih =>
    rw [List.forall_mem_cons] at hnames hvalues
    simp only [List.map_cons, readColumns, readColumn_line hnames.1 hvalues.1,
      ih hnames.2 hvalues.2]
    rfl

/-- A well-formed dataset that can be written is read back as it was. -/
theorem parse_toText {ds : Dataset} (hwell : ds.WellFormed) (hwritable : ds.Writable) :
    parse ds.toText = .ok ds := by
  have hlines : Text.lines ds.toText.toList = ds.columns.map Column.line := by
    rw [toText_toList]
    apply Text.lines_flatMap
    · intro l hl
      obtain ⟨c, hc, rfl⟩ := List.mem_map.mp hl
      exact Column.not_mem_line (hwritable.names c hc) (hwritable.values c hc)
    · intro l hl
      obtain ⟨c, hc, rfl⟩ := List.mem_map.mp hl
      exact Column.getLast?_line (hwritable.values c hc)
  unfold parse
  rw [hlines, readColumns_lines hwritable.names hwritable.values]
  exact ofColumns_eq_ok_iff.mpr ⟨rfl, hwell⟩

/-! What is read can be written -/

theorem of_readColumn {number : Nat} {line : List Char} {c : Column} (hfeed : '\n' ∉ line)
    (h : readColumn number line = .ok (some c)) :
    Column.IsName c.name ∧ ∀ v ∈ c.values, Column.IsValue v := by
  unfold readColumn at h
  split at h
  · cases h
  · split at h
    · cases h
    · rename_i name values hcut
      obtain ⟨rfl, hcolon⟩ := Text.of_cutAt_eq_some hcut
      simp only at h
      split at h
      · cases h
      · rename_i hname
        obtain rfl := Option.some.inj (Except.ok.inj h)
        have hsub := (Text.trim_sublist name).subset
        refine ⟨⟨?_, ?_, ?_, ?_⟩, ?_⟩
        · simpa using hname
        · rw [String.toList_ofList, Text.trim_trim]
        · rw [String.toList_ofList]
          exact fun hmem => hcolon (hsub hmem)
        · rw [String.toList_ofList]
          exact fun hmem => hfeed (List.mem_append_left _ (hsub hmem))
        · intro v hv
          obtain ⟨w, hw, rfl⟩ := List.mem_map.mp hv
          unfold Column.IsValue
          rw [String.toList_ofList]
          exact Text.isWord_of_mem_words hw

theorem exists_of_readColumns {number : Nat} {lines : List (List Char)} {columns : List Column}
    (h : readColumns number lines = .ok columns) :
    ∀ c ∈ columns, ∃ line ∈ lines, ∃ n, readColumn n line = .ok (some c) := by
  induction lines generalizing number columns with
  | nil =>
    obtain rfl := Except.ok.inj h
    simp
  | cons line rest ih =>
    unfold readColumns at h
    split at h
    · cases h
    · rename_i found hfound
      split at h
      · cases h
      · rename_i others hothers
        obtain rfl := Except.ok.inj h
        intro c hc
        rcases List.mem_append.mp hc with hfirst | hmore
        · obtain rfl := Option.mem_toList.mp hfirst
          exact ⟨line, List.mem_cons_self, number, hfound⟩
        · obtain ⟨l, hl, hread⟩ := ih hothers c hmore
          exact ⟨l, List.mem_cons_of_mem _ hl, hread⟩

/-- Whatever is read from a text is well formed and can be written. -/
theorem of_parse {text : String} {ds : Dataset} (h : parse text = .ok ds) :
    ds.WellFormed ∧ ds.Writable := by
  unfold parse at h
  split at h
  · cases h
  · rename_i columns hcolumns
    obtain ⟨rfl, hwell⟩ := ofColumns_eq_ok_iff.mp h
    have hread : ∀ c ∈ columns, Column.IsName c.name ∧ ∀ v ∈ c.values, Column.IsValue v := by
      intro c hc
      obtain ⟨line, hline, n, hc⟩ := exists_of_readColumns hcolumns c hc
      exact of_readColumn (Text.not_mem_of_mem_lines hline) hc
    exact ⟨hwell, fun c hc => (hread c hc).1, fun c hc => (hread c hc).2⟩

/-- Exactly the well-formed datasets that can be written are read back as they were. -/
theorem parse_toText_eq_ok_iff {ds : Dataset} :
    parse ds.toText = .ok ds ↔ ds.WellFormed ∧ ds.Writable := by
  constructor
  · exact of_parse
  · intro h
    exact parse_toText h.1 h.2

/-- Of the datasets that pass the check, exactly those are read back as they were whose names are
not empty, have no blank at either end and neither a colon nor a line feed in them, and whose
values are not empty and have no blank in them. Whatever was read from a text is among them, and
written once more it has the same text. -/
theorem reads_back_iff :
    (∀ columns ds, ofColumns columns = .ok ds → (parse ds.toText = .ok ds ↔
      ∀ c ∈ ds.columns, (c.name ≠ "" ∧
          ((∀ x ∈ c.name.toList.head?, Text.isBlank x = false) ∧
            ∀ x ∈ c.name.toList.getLast?, Text.isBlank x = false) ∧
          ':' ∉ c.name.toList ∧ '\n' ∉ c.name.toList) ∧
        ∀ value ∈ c.values, value ≠ "" ∧ ∀ x ∈ value.toList, Text.isBlank x = false)) ∧
      ∀ text ds, parse text = .ok ds →
        parse ds.toText = .ok ds ∧ (parse ds.toText).map toText = .ok ds.toText := by
  constructor
  · intro columns ds h
    have hwell := (ofColumns_eq_ok_iff.mp h).2
    simp only [← Column.isName_iff, ← Column.isValue_iff]
    rw [parse_toText_eq_ok_iff, and_iff_right hwell]
    constructor
    · intro hwritable c hc
      exact ⟨hwritable.names c hc, hwritable.values c hc⟩
    · intro hcolumns
      exact ⟨fun c hc => (hcolumns c hc).1, fun c hc => (hcolumns c hc).2⟩
  · intro text ds h
    have hagain : parse ds.toText = .ok ds := parse_toText_eq_ok_iff.mpr (of_parse h)
    exact ⟨hagain, map_eq_ok_iff.mpr ⟨ds, hagain, rfl⟩⟩

/-- A name may have a blank inside, and a text may have blank lines and carriage returns. -/
theorem reads_back_inner_blank :
    let ds : Dataset := ⟨[⟨"date", ["2024-04-24"]⟩, ⟨"wind speed", ["7"]⟩]⟩
    ofColumns ds.columns = .ok ds ∧ parse ds.toText = .ok ds ∧
      parse "\r\n date : 2024-04-24\r\nwind speed:7" = .ok ds ∧
      (parse ds.toText).map toText = .ok ds.toText := by
  intro ds
  have hcolumns : ofColumns ds.columns = .ok ds := by
    decide +kernel
  have hparse : parse "\r\n date : 2024-04-24\r\nwind speed:7" = .ok ds := by
    decide +kernel
  have hwritable : ds.Writable := (of_parse hparse).2
  refine ⟨hcolumns, (reads_back_iff.1 _ ds hcolumns).mpr fun c hc => ⟨?_, fun value hvalue => ?_⟩,
    hparse, (reads_back_iff.2 _ ds hparse).2⟩
  · exact Column.isName_iff.mp (hwritable.names c hc)
  · exact Column.isValue_iff.mp (hwritable.values c hc value hvalue)

end Dataset

end Almanac
