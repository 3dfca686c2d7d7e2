import Almanac.Proofs.Query.Parsing

/-!
Which texts can be read as arguments, and which values they stand for. A row stands in back-ticks
and a text in double quotes, each of at least the two delimiters; a number is finite; a date is a
place among the days in one or two characters or an ISO date.
-/

namespace Almanac.Argument

/-- Two or more characters, the first and the last of which are the delimiter. -/
def IsWrapped (delimiter : Char) (text : String) : Prop :=
  2 ≤ text.length ∧ text.toList.head? = some delimiter ∧ text.toList.getLast? = some delimiter

def IsRow (text : String) : Prop := IsWrapped '`' text

def IsText (text : String) : Prop := IsWrapped '"' text

def IsNumber (text : String) : Prop :=
  ∃ x, Decimal.readFloat? text.toList = some x ∧ x.isFinite = true

def IsPlace (days : Nat) (text : String) : Prop :=
  ∃ place, Decimal.readInteger? text.toList = some place ∧ -(days : Int) ≤ place ∧ place < days

def IsDate (days : Nat) (text : String) : Prop :=
  (text.length = 1 ∨ text.length = 2) ∧ IsPlace days text ∨
    text.length = 10 ∧ isIsoDate text = true

variable {days : Nat} {text : String}

theorem exists_unwrap?_iff {delimiter : Char} {cs : List Char} :
    (∃ inside, Text.unwrap? delimiter cs = some inside) ↔
      2 ≤ cs.length ∧ cs.head? = some delimiter ∧ cs.getLast? = some delimiter := by
  cases cs with
  | nil => simp [Text.unwrap?]
  | cons c rest =>
    by_cases hc : c = delimiter
    · cases rest with
      | nil => simp [Text.unwrap?, Text.dropLast?]
      | cons next more =>
        simp only [Text.unwrap?, Text.dropLast?, List.getLast?_cons_cons, List.length_cons,
          List.head?_cons, hc]
        by_cases hlast : (next :: more).getLast? = some delimiter
        · simp [hlast]
        · simp [hlast]
    · simp [Text.unwrap?, hc]

theorem exists_unwrapText?_iff {delimiter : Char} :
    (∃ inside, unwrapText? delimiter text = some inside) ↔ IsWrapped delimiter text := by
  rw [IsWrapped, ← String.length_toList, ← exists_unwrap?_iff, unwrapText?]
  cases Text.unwrap? delimiter text.toList <;> simp

theorem fits_row_iff : Fits days .row text ↔ IsRow text := by
  rw [IsRow, ← exists_unwrapText?_iff]
  simp only [Fits, readValue]
  cases unwrapText? '`' text <;> simp

theorem fits_string_iff : Fits days .string text ↔ IsText text := by
  rw [IsText, ← exists_unwrapText?_iff]
  simp only [Fits, readValue]
  cases unwrapText? '"' text <;> simp

theorem readFinite?_eq_some_iff {cs : List Char} {x : Float} :
    Decimal.readFinite? cs = some x ↔ Decimal.readFloat? cs = some x ∧ x.isFinite = true := by
  rw [Decimal.readFinite?, Option.filter_eq_some_iff]

theorem isNumber_iff : IsNumber text ↔ ∃ x, Decimal.readFinite? text.toList = some x := by
  simp only [IsNumber, readFinite?_eq_some_iff]

theorem fits_number_iff : Fits days .number text ↔ IsNumber text := by
  rw [isNumber_iff]
  simp only [Fits, readValue]
  cases Decimal.readFinite? text.toList <;> simp

theorem fits_int_iff : Fits days .int text ↔ IsNumber text := @fits_number_iff days text

theorem fits_enum : Fits days .enum text := ⟨.enum text, rfl⟩

/-- One or two characters are read as a place among the days. -/
theorem readDate_short (h : text.length = 1 ∨ text.length = 2) {token : DateToken} :
    readDate days text = .ok token ↔
      ∃ place, Decimal.readInteger? text.toList = some place ∧
        (-(days : Int) ≤ place ∧ place < days) ∧ token = .index place := by
  cases hread : Decimal.readInteger? text.toList with
  | none => rcases h with h | h <;> simp [readDate, h, hread]
  | some place =>
    have hbounds : inBounds days place = true ↔ -(days : Int) ≤ place ∧ place < days := by
      simp [inBounds]
    by_cases hin : inBounds days place = true
    · rcases h with h | h <;> simp [readDate, h, hread, hin, hbounds.mp hin, eq_comm]
    · have hout : ¬ (-(days : Int) ≤ place ∧ place < days) := fun hb => hin (hbounds.mpr hb)
      rcases h with h | h <;>
        simp only [readDate, h, hread, hin, if_false, Bool.false_eq_true, reduceCtorEq,
          Option.some.injEq, exists_eq_left', hout, false_and]

theorem readDate_eq_ok_iff {token : DateToken} :
    readDate days text = .ok token ↔
      (text.length = 1 ∨ text.length = 2) ∧
          (∃ place, Decimal.readInteger? text.toList = some place ∧
            (-(days : Int) ≤ place ∧ place < days) ∧ token = .index place) ∨
        text.length = 10 ∧ isIsoDate text = true ∧ token = .iso text := by
  by_cases hshort : text.length = 1 ∨ text.length = 2
  · rw [readDate_short hshort]
    have hlength : text.length ≠ 10 := by omega
    simp only [hshort, true_and, hlength, false_and, or_false]
  · rw [readDate]
    simp only [hshort, false_and, false_or]
    split
    · omega
    · omega
    · rename_i hlength
      by_cases hiso : isIsoDate text = true <;> simp [hlength, hiso, eq_comm]
    · rename_i hlength
      have hne : text.length ≠ 10 := hlength
      simp [hne]

theorem exists_readDate_iff : (∃ token, readDate days text = .ok token) ↔ IsDate days text := by
  simp only [readDate_eq_ok_iff, IsDate, IsPlace]
  constructor
  · intro h
    obtain ⟨token, ⟨hlength, place, hplace, hbounds, _⟩ | ⟨hlength, hiso, _⟩⟩ := h
    · exact .inl ⟨hlength, place, hplace, hbounds⟩
    · exact .inr ⟨hlength, hiso⟩
  · intro h
    rcases h with ⟨hlength, place, hplace, hbounds⟩ | ⟨hlength, hiso⟩
    · exact ⟨_, .inl ⟨hlength, place, hplace, hbounds, rfl⟩⟩
    · exact ⟨_, .inr ⟨hlength, hiso, rfl⟩⟩

theorem fits_date_iff : Fits days .date text ↔ IsDate days text := by
  rw [← exists_readDate_iff]
  simp only [Fits, readValue]
  cases readDate days text <;> simp [Except.map]

/-- An ISO date has ten characters, each a digit or a hyphen, and the first one is a digit. -/
theorem of_isIsoDate (h : isIsoDate text = true) :
    text.length = 10 ∧ (∀ ch ∈ text.toList, ch.isDigit = true ∨ ch = '-') ∧
      ∃ ch, text.toList.head? = some ch ∧ ch.isDigit = true := by
  rw [isIsoDate] at h
  split at h
  · rename_i hchars
    simp only [List.all_cons, List.all_nil, Bool.and_true, Bool.and_eq_true,
      decide_eq_true_eq] at h
    rw [← String.length_toList, hchars]
    refine ⟨rfl, ?_, _, rfl, h.1.1.1⟩
    simp [h]
  · cases h

/-! What the values of arguments are, and how they are found -/

/-- What a text stands for where an argument of some kind is asked for. -/
inductive Stands (days : Nat) : ParamKind → String → ArgumentValue → Prop
  | row {raw name : String} (hraw : raw.toList = '`' :: (name.toList ++ ['`'])) :
    Stands days .row raw (.row name)
  | text {raw content : String} (hraw : raw.toList = '"' :: (content.toList ++ ['"'])) :
    Stands days .string raw (.text content)
  | enum (raw : String) : Stands days .enum raw (.enum raw)
  | int {raw : String} {x : Float} (hread : Decimal.readFloat? raw.toList = some x)
    (hfinite : x.isFinite = true) : Stands days .int raw (.number x)
  | number {raw : String} {x : Float} (hread : Decimal.readFloat? raw.toList = some x)
    (hfinite : x.isFinite = true) : Stands days .number raw (.number x)
  | place {raw : String} {place : Int} (hshort : raw.length = 1 ∨ raw.length = 2)
    (hread : Decimal.readInteger? raw.toList = some place) (hlow : -(days : Int) ≤ place)
    (hhigh : place < days) : Stands days .date raw (.date (.index place))
  | iso {raw : String} (hiso : isIsoDate raw = true) : Stands days .date raw (.date (.iso raw))

variable {value : ArgumentValue} {command : String} {nested : Bool}

theorem unwrap?_eq_some_iff {delimiter : Char} {cs inside : List Char} :
    Text.unwrap? delimiter cs = some inside ↔ cs = delimiter :: (inside ++ [delimiter]) := by
  cases cs with
  | nil => simp [Text.unwrap?]
  | cons c rest =>
    by_cases hc : c = delimiter
    · simp only [Text.unwrap?, Text.dropLast?, Option.ite_none_right_eq_some,
        Option.some.injEq, hc, List.cons.injEq, true_and, List.getLast?_eq_some_iff]
      constructor
      · intro h
        obtain ⟨⟨front, rfl⟩, hinside⟩ := h
        rw [← hinside, List.dropLast_concat]
      · intro h
        exact ⟨⟨inside, h⟩, by rw [h, List.dropLast_concat]⟩
    · simp [Text.unwrap?, hc]

theorem unwrapText?_eq_some_iff {delimiter : Char} {inside : String} :
    unwrapText? delimiter text = some inside ↔
      text.toList = delimiter :: (inside.toList ++ [delimiter]) := by
  rw [unwrapText?, Option.map_eq_some_iff, ← unwrap?_eq_some_iff]
  constructor
  · intro h
    obtain ⟨cs, hcs, rfl⟩ := h
    rw [hcs, String.toList_ofList]
  · intro h
    exact ⟨inside.toList, h, String.ofList_toList⟩

/-- An integer is read like any other number. -/
theorem readValue_int : readValue days text .int = readValue days text .number := rfl

theorem readValue_number_eq_ok_iff :
    readValue days text .number = .ok value ↔
      ∃ x, (Decimal.readFloat? text.toList = some x ∧ x.isFinite = true) ∧ .number x = value := by
  simp only [readValue, ← readFinite?_eq_some_iff]
  cases Decimal.readFinite? text.toList <;> simp

theorem stands_date_iff {token : DateToken} :
    Stands days .date text (.date token) ↔ readDate days text = .ok token := by
  rw [readDate_eq_ok_iff]
  constructor
  · intro h
    cases h with
    | place hshort hread hlow hhigh => exact .inl ⟨hshort, _, hread, ⟨hlow, hhigh⟩, rfl⟩
    | iso hiso => exact .inr ⟨(of_isIsoDate hiso).1, hiso, rfl⟩
  · intro h
    rcases h with ⟨hshort, place, hread, ⟨hlow, hhigh⟩, rfl⟩ | ⟨_, hiso, rfl⟩
    · exact .place hshort hread hlow hhigh
    · exact .iso hiso

/-- A text is read as exactly the value that it stands for. -/
theorem readValue_eq_ok_iff {kind : ParamKind} :
    readValue days text kind = .ok value ↔ Stands days kind text value := by
  constructor
  · intro h
    cases kind with
    | row =>
      simp only [readValue] at h
      split at h
      · rename_i name hname
        obtain rfl := Except.ok.inj h
        exact .row (unwrapText?_eq_some_iff.mp hname)
      · cases h
    | string =>
      simp only [readValue] at h
      split at h
      · rename_i content hcontent
        obtain rfl := Except.ok.inj h
        exact .text (unwrapText?_eq_some_iff.mp hcontent)
      · cases h
    | int =>
      rw [readValue_int] at h
      obtain ⟨x, ⟨hread, hfinite⟩, rfl⟩ := readValue_number_eq_ok_iff.mp h
      exact .int hread hfinite
    | number =>
      obtain ⟨x, ⟨hread, hfinite⟩, rfl⟩ := readValue_number_eq_ok_iff.mp h
      exact .number hread hfinite
    | date =>
      obtain ⟨token, htoken, rfl⟩ := map_eq_ok_iff.mp h
      exact stands_date_iff.mpr htoken
    | enum =>
      obtain rfl := Except.ok.inj h
      exact .enum text
    | subQuery => cases h
    | unsupported => cases h
  · intro h
    have hdate {token : DateToken} (h : Stands days .date text (.date token)) :
        readValue days text .date = .ok (.date token) :=
      map_eq_ok_iff.mpr ⟨token, stands_date_iff.mp h, rfl⟩
    cases h with
    | row hraw => simp only [readValue, unwrapText?_eq_some_iff.mpr hraw]
    | text hraw => simp only [readValue, unwrapText?_eq_some_iff.mpr hraw]
    | enum => rfl
    | int hread hfinite =>
      rw [readValue_int]
      exact readValue_number_eq_ok_iff.mpr ⟨_, ⟨hread, hfinite⟩, rfl⟩
    | number hread hfinite => exact readValue_number_eq_ok_iff.mpr ⟨_, ⟨hread, hfinite⟩, rfl⟩
    | place hshort hread hlow hhigh => exact hdate (.place hshort hread hlow hhigh)
    | iso hiso => exact hdate (.iso hiso)

theorem Stands.kind_ne {kind : ParamKind} {raw : String} {value : ArgumentValue}
    (h : Stands days kind raw value) : kind ≠ .subQuery ∧ kind ≠ .unsupported := by
  cases h <;> decide

theorem exists_row_of_readValue (h : readValue days text .row = .ok value) :
    ∃ name, value = .row name := by
  cases readValue_eq_ok_iff.mp h with
  | row => exact ⟨_, rfl⟩

theorem exists_text_of_readValue (h : readValue days text .string = .ok value) :
    ∃ content, value = .text content := by
  cases readValue_eq_ok_iff.mp h with
  | text => exact ⟨_, rfl⟩

theorem exists_number_of_readValue (h : readValue days text .number = .ok value) :
    ∃ x, value = .number x := by
  cases readValue_eq_ok_iff.mp h with
  | number => exact ⟨_, rfl⟩

/-- Only a date parameter has a date as its value, and it is one that the text stands for. -/
theorem readDate_of_readValue {kind : ParamKind} {token : DateToken}
    (h : readValue days text kind = .ok (.date token)) : readDate days text = .ok token := by
  have hstands := readValue_eq_ok_iff.mp h
  obtain rfl : kind = .date := by
    cases hstands <;> rfl
  exact stands_date_iff.mp hstands

theorem readValue_of_mem_bindAll {params : List Param} {tokens : List Token}
    {args : List Argument} (h : bindAll days command nested params tokens = .ok args)
    {a : Argument} (ha : a ∈ args) : readValue days a.raw a.kind = .ok a.value := by
  rw [bindAll_eq_ok_iff, List.forall₂_iff_get] at h
  obtain ⟨i, hi, rfl⟩ := List.mem_iff_getElem.mp ha
  obtain ⟨value, hvalue, heq⟩ := bind_eq_ok_iff.mp (h.2 i (h.1 ▸ hi) hi)
  rw [List.get_eq_getElem] at heq
  rw [heq]
  exact hvalue

/-- The argument of a parameter is found by its name if no earlier parameter has the name. -/
theorem exists_find?_of_bindAll {front rest : List Param} {p : Param} {tokens : List Token}
    {args : List Argument}
    (h : bindAll days command nested (front ++ p :: rest) tokens = .ok args)
    (hlong : front.length < tokens.length) (hfirst : ∀ earlier ∈ front, earlier.name ≠ p.name) :
    ∃ a, args.find? (fun a => a.name = p.name) = some a ∧
      readValue days a.raw p.kind = .ok a.value := by
  induction front generalizing tokens args with
  | nil =>
    cases tokens with
    | nil => simp at hlong
    | cons token tokens =>
      rw [bindAll_eq_ok_iff, List.nil_append, List.zip_cons_cons, List.forall₂_cons_left_iff] at h
      obtain ⟨a, others, ha, _, rfl⟩ := h
      obtain ⟨value, hvalue, rfl⟩ := bind_eq_ok_iff.mp ha
      exact ⟨_, List.find?_cons_of_pos (by simp), hvalue⟩
  | cons earlier front ih =>
    cases tokens with
    | nil => simp at hlong
    | cons token tokens =>
      rw [bindAll_eq_ok_iff, List.cons_append, List.zip_cons_cons, List.forall₂_cons_left_iff] at h
      obtain ⟨a, others, ha, hothers, rfl⟩ := h
      obtain ⟨value, hvalue, rfl⟩ := bind_eq_ok_iff.mp ha
      rw [List.forall_mem_cons] at hfirst
      obtain ⟨found, hfound, hread⟩ := ih (bindAll_eq_ok_iff.mpr hothers)
        (Nat.lt_of_succ_lt_succ hlong) hfirst.2
      exact ⟨found, by rw [List.find?_cons_of_neg (by simpa using hfirst.1), hfound], hread⟩

end Almanac.Argument
