import Almanac.Dataset.Records
import Almanac.Proofs.Dataset.WrittenForm
import Almanac.Proofs.Json.Numeral
import Mathlib.Data.Int.ModEq

/-!
The arithmetic of ranges stays within its machine types, and no list is read where it has nothing.
Each step from a date to the values of a row is written again with guards: sums stop when they
leave their type, and so does reading outside of a list. On a well-formed dataset no guard ever
stops a step, whatever row, places and texts are given, and the guarded steps give the results and
the errors of the plain ones.
-/

namespace Almanac

/-! Computations with guards -/

/-- Why a guard stops a computation. -/
inductive Stop where
  | overflow
  | outOfBounds
deriving DecidableEq, Repr

abbrev Guarded (α : Type) := ExceptT DatasetError (Except Stop) α

namespace Guarded

variable {α β : Type}

def stop (why : Stop) : Guarded α := ExceptT.mk (.error why)

/-- The computation without guards: whatever comes of it, it is not stopped. -/
def unstopped (x : Except DatasetError α) : Guarded α := ExceptT.mk (.ok x)

def fail (e : DatasetError) : Guarded α := unstopped (.error e)

/-- Steps that are not stopped after a step that is not stopped. -/
theorem bind_unstopped {x : Except DatasetError α} {f : α → Guarded β}
    {g : α → Except DatasetError β} (h : ∀ a, x = .ok a → f a = unstopped (g a)) :
    unstopped x >>= f = unstopped (x >>= g) := by
  cases x with
  | error e => rfl
  | ok a => exact h a rfl

theorem bind_unstopped_map {x : Except DatasetError α} {f : α → Guarded β} {g : α → β}
    (h : ∀ a, x = .ok a → f a = unstopped (.ok (g a))) :
    unstopped x >>= f = unstopped (x.map g) := by
  cases x with
  | error e => rfl
  | ok a => exact h a rfl

theorem unstopped_ok_bind (a : α) (f : α → Guarded β) : unstopped (.ok a) >>= f = f a :=
  rfl

theorem mapM_unstopped {items : List α} {f : α → Guarded β} {g : α → Except DatasetError β}
    (h : ∀ item ∈ items, f item = unstopped (g item)) :
    items.mapM f = unstopped (items.mapM g) := by
  induction items with
  | nil => rfl
  | cons item rest ih =>
    obtain ⟨hitem, hrest⟩ := List.forall_mem_cons.mp h
    rw [List.mapM_cons, List.mapM_cons, hitem, ih hrest]
    exact bind_unstopped fun b _ => bind_unstopped fun bs _ => rfl

/-- Steps that each give a result. -/
theorem mapM_unstopped_ok {items : List α} {f : α → Guarded β} {g : α → β}
    (h : ∀ item ∈ items, f item = unstopped (.ok (g item))) :
    items.mapM f = unstopped (.ok (items.map g)) := by
  have hresults : items.mapM (fun item => (.ok (g item) : Except DatasetError β)) =
      .ok (items.map g) :=
    List.mapM_pure
  rw [mapM_unstopped h, hresults]

def countLimit : Nat := Decimal.twoTo 64

theorem placeLimit_lt_countLimit : placeLimit < countLimit := by decide

def addPlaces (a b : Int) : Guarded Int :=
  if -(placeLimit : Int) ≤ a + b ∧ a + b < placeLimit then pure (a + b) else stop .overflow

def addCounts (a b : Nat) : Guarded Nat :=
  if a + b < countLimit then pure (a + b) else stop .overflow

def readAt (values : List α) (position : Nat) : Guarded α :=
  match values[position]? with
  | some value => pure value
  | none => stop .outOfBounds

def readSlice (values : List α) (days : Nat × Nat) : Guarded (List α) :=
  if days.1 ≤ days.2 ∧ days.2 ≤ values.length then pure (Dataset.slice values days)
  else stop .outOfBounds

theorem addCounts_eq {a b : Nat} (h : a + b < countLimit) :
    addCounts a b = unstopped (.ok (a + b)) :=
  if_pos h

theorem readAt_eq {values : List α} {position : Nat} (fallback : α)
    (h : position < values.length) :
    readAt values position = unstopped (.ok (values.getD position fallback)) := by
  simp only [readAt, List.getD_eq_getElem?_getD, List.getElem?_eq_getElem h, Option.getD_some]
  rfl

theorem readSlice_eq {values : List α} {days : Nat × Nat} (hle : days.1 ≤ days.2)
    (hin : days.2 ≤ values.length) :
    readSlice values days = unstopped (.ok (Dataset.slice values days)) :=
  if_pos ⟨hle, hin⟩

end Guarded

open Guarded

/-! Positions of dates -/

def guardedRelativeIndex (index : Int) (count : Nat) : Guarded (Option Nat) :=
  if count < placeLimit then do
    let position ← if index < 0 then addPlaces count index else pure index
    pure (if 0 ≤ position ∧ position < count then some position.toNat else none)
  else pure none

theorem guardedRelativeIndex_eq {index : Int} (hlow : -(placeLimit : Int) ≤ index) (count : Nat) :
    guardedRelativeIndex index count = unstopped (.ok (relativeIndex index count)) := by
  unfold guardedRelativeIndex relativeIndex
  by_cases hcount : count < placeLimit
  · by_cases hneg : index < 0
    · have hsum : -(placeLimit : Int) ≤ count + index ∧ (count : Int) + index < placeLimit := by
        omega
      simp only [hcount, hneg, addPlaces, hsum, if_true, decide_true, Bool.true_and,
        Bool.and_eq_true, decide_eq_true_eq]
      rfl
    · simp only [hcount, hneg, if_true, if_false, decide_true, Bool.true_and, Bool.and_eq_true,
        decide_eq_true_eq]
      rfl
  · simp only [hcount, if_false, decide_false, Bool.false_and, Bool.false_eq_true]
    rfl

/-- The places that refer to a day count from the first one or back from the last one. -/
theorem exists_relativeIndex_iff {index : Int} {count : Nat} (hfew : count < placeLimit) :
    (∃ k, relativeIndex index count = some k) ↔ -(count : Int) ≤ index ∧ index < count := by
  constructor
  · rintro ⟨k, hk⟩
    have hbounds := relativeIndex_eq_some_iff.mp hk
    omega
  · intro hbounds
    by_cases hneg : index < 0
    · exact ⟨(count + index).toNat, relativeIndex_eq_some_iff.mpr (by omega)⟩
    · exact ⟨index.toNat, relativeIndex_eq_some_iff.mpr (by omega)⟩

theorem relativeIndex_modEq {index : Int} {count k : Nat} (h : relativeIndex index count = some k) :
    (k : Int) ≡ index [ZMOD count] := by
  obtain ⟨-, -, hk | hk⟩ := relativeIndex_eq_some_iff.mp h
  · rw [hk]
  · rw [hk]
    exact Int.add_modEq_left

namespace DateToken

def Fits : DateToken → Prop
  | index place => -(placeLimit : Int) ≤ place ∧ place < placeLimit
  | iso _ => True

def guardedPosition (dates : List String) : DateToken → Guarded (Option Nat)
  | index place => guardedRelativeIndex place dates.length
  | iso date => pure (dates.findIdx? (· = date))

theorem guardedPosition_eq {token : DateToken} (hfits : token.Fits) (dates : List String) :
    token.guardedPosition dates = unstopped (.ok (token.position? dates)) := by
  cases token with
  | index place => exact guardedRelativeIndex_eq hfits.1 dates.length
  | iso date => rfl

end DateToken

namespace Dataset

variable {ds : Dataset} {row : String} {first last : Option DateToken} {token : DateToken}
  {days : Nat × Nat}

def guardedDateIndex (ds : Dataset) (token : DateToken) : Guarded Nat := do
  match ← token.guardedPosition ds.dates with
  | some position => pure position
  | none =>
    match token with
    | .index place => fail (.dateIndexOutOfRange place ds.length)
    | .iso date => fail (.dateNotFound date)

theorem guardedDateIndex_eq (hfits : token.Fits) :
    ds.guardedDateIndex token = unstopped (ds.dateIndex token) := by
  unfold guardedDateIndex dateIndex
  rw [DateToken.guardedPosition_eq hfits]
  cases token.position? ds.dates with
  | some position => rfl
  | none => cases token <;> rfl

def guardedResolveDate (ds : Dataset) : DateToken → Guarded String
  | .iso date => pure date
  | .index place => do
    let position ← ds.guardedDateIndex (.index place)
    readAt ds.dates position

theorem guardedResolveDate_eq (hfits : token.Fits) :
    ds.guardedResolveDate token = unstopped (ds.resolveDate token) := by
  cases token with
  | iso date => rfl
  | index place =>
    have hresolve : ds.resolveDate (.index place) =
        (do
          let position ← ds.dateIndex (.index place)
          pure (ds.dates.getD position "")) := by
      rw [resolveDate]
      cases ds.dateIndex (.index place) <;> rfl
    rw [hresolve, guardedResolveDate, guardedDateIndex_eq hfits]
    refine bind_unstopped fun position hposition => ?_
    exact readAt_eq "" (DateToken.position?_lt (dateIndex_eq_ok_iff.mp hposition))

/-! Ranges -/

def guardedStart (ds : Dataset) : Option DateToken → Guarded Nat
  | some token => ds.guardedDateIndex token
  | none => pure 0

def guardedStop (ds : Dataset) : Option DateToken → Guarded Nat
  | some token => do
    let position ← ds.guardedDateIndex token
    addCounts position 1
  | none => pure ds.length

def guardedRange (ds : Dataset) (first last : Option DateToken) : Guarded (Nat × Nat) := do
  let start ← ds.guardedStart first
  let stop ← ds.guardedStop last
  if stop ≤ start then
    fail (.emptyRange ((first.map DateToken.display).getD "first")
      ((last.map DateToken.display).getD "last"))
  else pure (start, stop)

theorem guardedStart_eq (hfirst : ∀ token ∈ first, token.Fits) :
    ds.guardedStart first = unstopped (ds.rangeStart first) := by
  cases first with
  | none => rfl
  | some token => exact guardedDateIndex_eq (hfirst token rfl)

theorem guardedStop_eq (hfew : ds.length < placeLimit) (hlast : ∀ token ∈ last, token.Fits) :
    ds.guardedStop last = unstopped (ds.rangeStop last) := by
  cases last with
  | none => rfl
  | some token =>
    rw [rangeStop, guardedStop, guardedDateIndex_eq (hlast token rfl)]
    refine bind_unstopped_map fun position hposition => addCounts_eq ?_
    have hlt : position < ds.length :=
      DateToken.position?_lt (dateIndex_eq_ok_iff.mp hposition)
    have hlimits := placeLimit_lt_countLimit
    omega

theorem guardedRange_eq (hfew : ds.length < placeLimit) (hfirst : ∀ token ∈ first, token.Fits)
    (hlast : ∀ token ∈ last, token.Fits) :
    ds.guardedRange first last = unstopped (ds.range first last) := by
  rw [guardedRange, range_eq, guardedStart_eq hfirst, guardedStop_eq hfew hlast]
  refine bind_unstopped fun start _ => bind_unstopped fun stop _ => ?_
  split <;> rfl

/-! Values -/

/-- The date of a value is read only for an error that names it. -/
def guardedNumbers (ds : Dataset) (row : String) (days : Nat × Nat) : Guarded (List Float) :=
  match ds.row? row with
  | none => fail (.unknownRow row)
  | some values =>
    (List.range' days.1 (days.2 - days.1)).mapM fun day => do
      let value ← readAt values day
      match Decimal.readFinite? value.toList with
      | some x => pure x
      | none => do
        let date ← readAt ds.dates day
        fail (.notNumeric row date value)

theorem WellFormed.guardedNumbers_eq (hds : ds.WellFormed) (hin : days.2 ≤ ds.length) :
    ds.guardedNumbers row days = unstopped (ds.numbers row days) := by
  rw [guardedNumbers, numbers]
  cases hrow : ds.row? row with
  | none => rfl
  | some values =>
    have hdates : days.2 ≤ ds.dates.length := hin
    have hvalues : days.2 ≤ values.length := (hds.length_of_row? hrow).symm ▸ hin
    simp only [slice_eq_map "" hdates, slice_eq_map "" hvalues, List.zip_map', List.mapM_map]
    refine mapM_unstopped fun day hday => ?_
    rw [List.mem_range'_1] at hday
    have hvalue : day < values.length := by omega
    have hdate : day < ds.dates.length := by omega
    rw [readAt_eq "" hvalue, readAt_eq "" hdate, Function.comp_apply, readNumber]
    simp only [unstopped_ok_bind]
    cases Decimal.readFinite? (values.getD day "").toList <;> rfl

def guardedAggregateDays (ds : Dataset) (kind : Aggregate) (first last : Option DateToken) :
    Guarded (Nat × Nat) :=
  match kind with
  | .value => do
    let days ← ds.guardedRange first none
    let stop ← addCounts days.1 1
    pure (days.1, stop)
  | _ => ds.guardedRange first last

def guardedAggregate (ds : Dataset) (kind : Aggregate) (row : String)
    (first last : Option DateToken) : Guarded Float := do
  let days ← ds.guardedAggregateDays kind first last
  let values ← ds.guardedNumbers row days
  match kind.reduce? values with
  | some x => pure x
  | none => fail (.emptyRange "" "")

def guardedHistogram (ds : Dataset) (row : String) (first last : Option DateToken) :
    Guarded (List (String × Float)) := do
  let days ← ds.guardedRange first last
  let dates ← readSlice ds.dates days
  let values ← ds.guardedNumbers row days
  pure (dates.zip values)

theorem guardedAggregateDays_eq (hfew : ds.length < placeLimit)
    (hfirst : ∀ token ∈ first, token.Fits) (hlast : ∀ token ∈ last, token.Fits)
    (kind : Aggregate) :
    ds.guardedAggregateDays kind first last = unstopped (ds.aggregateDays kind first last) := by
  cases kind with
  | value =>
    have hnone : ∀ token ∈ (none : Option DateToken), token.Fits := fun _ h => nomatch h
    rw [aggregateDays, guardedAggregateDays, guardedRange_eq hfew hfirst hnone]
    refine bind_unstopped_map fun days hrange => ?_
    obtain ⟨hlt, hle, -⟩ := range_eq_ok hrange
    have hlimits := placeLimit_lt_countLimit
    have hsum : days.1 + 1 < countLimit := by omega
    rw [addCounts_eq hsum]
    rfl
  | min | max | avg => exact guardedRange_eq hfew hfirst hlast

theorem WellFormed.guardedAggregate_eq (hds : ds.WellFormed) (hfew : ds.length < placeLimit)
    (hfirst : ∀ token ∈ first, token.Fits) (hlast : ∀ token ∈ last, token.Fits)
    (kind : Aggregate) :
    ds.guardedAggregate kind row first last = unstopped (ds.aggregate kind row first last) := by
  rw [guardedAggregate, aggregate, guardedAggregateDays_eq hfew hfirst hlast]
  refine bind_unstopped fun days hdays => ?_
  rw [hds.guardedNumbers_eq (aggregateDays_bounds hdays).2]
  refine bind_unstopped fun values _ => ?_
  cases kind.reduce? values <;> rfl

theorem WellFormed.guardedHistogram_eq (hds : ds.WellFormed) (hfew : ds.length < placeLimit)
    (hfirst : ∀ token ∈ first, token.Fits) (hlast : ∀ token ∈ last, token.Fits) :
    ds.guardedHistogram row first last = unstopped (ds.histogram row first last) := by
  rw [guardedHistogram, histogram, guardedRange_eq hfew hfirst hlast]
  refine bind_unstopped fun days hrange => ?_
  obtain ⟨hlt, hin, -⟩ := range_eq_ok hrange
  rw [readSlice_eq (Nat.le_of_lt hlt) hin, unstopped_ok_bind, hds.guardedNumbers_eq hin]
  exact bind_unstopped fun values _ => rfl

/-! Records -/

def guardedRecords (ds : Dataset) : Guarded (List Record) :=
  (List.range ds.length).mapM fun day => do
    let fields ← ds.columns.mapM fun c => do
      let value ← readAt c.values day
      pure (c.name, value)
    pure (Keyed.ofList fields)

theorem WellFormed.guardedRecords_eq (hds : ds.WellFormed) :
    ds.guardedRecords = unstopped (.ok ds.records) := by
  refine mapM_unstopped_ok fun day hday => ?_
  have hfields : (ds.columns.mapM fun c => do
      let value ← readAt c.values day
      pure (c.name, value)) =
        unstopped (.ok (ds.columns.map fun c => (c.name, c.values.getD day ""))) := by
    refine mapM_unstopped_ok fun c hc => ?_
    have hlt : day < c.values.length := (hds.aligned c hc).symm ▸ List.mem_range.mp hday
    rw [readAt_eq "" hlt]
    rfl
  rw [hfields]
  rfl

/-! Empty ranges -/

theorem WellFormed.display_ne_empty (hds : ds.WellFormed) {day : Nat}
    (h : token.position? ds.dates = some day) : token.display ≠ "" := by
  intro hempty
  cases token with
  | index place =>
    have hchars : (toString place).toList = [] := by
      rw [show toString place = "" from hempty]
      rfl
    cases place with
    | ofNat n => exact Nat.toDigits_ne_nil ((Json.toList_toString_ofNat n).symm.trans hchars)
    | negSucc n =>
      rw [Json.toList_toString_negSucc] at hchars
      cases hchars
  | iso date =>
    -- A text that is found is one of the dates, and no date is empty.
    obtain ⟨hlt, hdate, -⟩ := List.findIdx?_eq_some_iff_getElem.mp h
    have hiso := hds.iso _ (List.getElem_mem hlt)
    rw [of_decide_eq_true hdate, show date = "" from hempty] at hiso
    cases hiso

theorem dateIndex_ne_emptyRange (start stop : String) :
    ds.dateIndex token ≠ .error (.emptyRange start stop) := by
  unfold dateIndex
  cases token.position? ds.dates with
  | some position => nofun
  | none => cases token <;> nofun

/-- The error of a range without days gives a text for its last day, or the word for it. -/
theorem WellFormed.range_ne_emptyRange (hds : ds.WellFormed) (start : String) :
    ds.range first last ≠ .error (.emptyRange start "") := by
  intro h
  simp only [range_eq, bind_eq_error_iff] at h
  rcases h with hstart | ⟨_, -, hstop | ⟨stop, hstop, hempty⟩⟩
  · cases first with
    | none => cases hstart
    | some token => exact dateIndex_ne_emptyRange _ _ hstart
  · cases last with
    | none => cases hstop
    | some token => exact dateIndex_ne_emptyRange _ _ (map_eq_error_iff.mp hstop)
  · split at hempty
    · obtain ⟨-, hdisplay⟩ := DatasetError.emptyRange.inj (Except.error.inj hempty)
      cases last with
      | none => exact absurd hdisplay (by decide)
      | some token =>
        obtain ⟨day, hday, -⟩ := map_eq_ok_iff.mp hstop
        exact hds.display_ne_empty (dateIndex_eq_ok_iff.mp hday) hdisplay
    · cases hempty

theorem WellFormed.aggregateDays_ne_emptyRange (hds : ds.WellFormed) (kind : Aggregate)
    (start : String) :
    ds.aggregateDays kind first last ≠ .error (.emptyRange start "") := by
  intro h
  cases kind with
  | value => exact hds.range_ne_emptyRange start (map_eq_error_iff.mp h)
  | min | max | avg => exact hds.range_ne_emptyRange start h

theorem numbers_ne_emptyRange (start stop : String) :
    ds.numbers row days ≠ .error (.emptyRange start stop) := by
  intro h
  rw [numbers] at h
  split at h
  · cases h
  · obtain ⟨item, -, hread⟩ := exists_of_mapM_eq_error h
    rw [readNumber] at hread
    split at hread <;> cases hread

/-- The days of an aggregate are some, so that its values can be reduced. -/
theorem WellFormed.aggregate_ne_emptyRange (hds : ds.WellFormed) (kind : Aggregate) :
    ds.aggregate kind row first last ≠ .error (.emptyRange "" "") := by
  intro h
  simp only [aggregate, bind_eq_error_iff] at h
  rcases h with hdays | ⟨days, hdays, hnumbers | ⟨values, hvalues, hreduce⟩⟩
  · exact hds.aggregateDays_ne_emptyRange kind "" hdays
  · exact numbers_ne_emptyRange "" "" hnumbers
  · obtain ⟨hlt, hin⟩ := aggregateDays_bounds hdays
    obtain ⟨x, hx⟩ := hds.exists_reduce? hlt hin hvalues kind
    rw [hx] at hreduce
    cases hreduce

/-- The arithmetic of ranges is safe. A place refers to a day exactly if it lies among the days,
counted from either end, and its day is the same modulo their number; finding it overflows
nowhere. A range that is given has days, and they are days of the dataset. Dates, aggregates,
histograms and records are found without a sum that leaves its type and without a position outside
of a column, whatever texts are given for dates, and an aggregate never finds that a range has no
days after the range was given. No list in memory has `placeLimit` days. -/
theorem guarded_never_stops (hds : ds.WellFormed) (hfew : ds.length < placeLimit) :
    (∀ index : Int, -(placeLimit : Int) ≤ index ∧ index < placeLimit →
      guardedRelativeIndex index ds.length = unstopped (.ok (relativeIndex index ds.length)) ∧
      ((∃ k, relativeIndex index ds.length = some k) ↔
        -(ds.length : Int) ≤ index ∧ index < ds.length) ∧
      ∀ k, relativeIndex index ds.length = some k →
        k < ds.length ∧ (k : Int) ≡ index [ZMOD ds.length]) ∧
    (∀ token : DateToken, token.Fits →
      ds.guardedResolveDate token = unstopped (ds.resolveDate token)) ∧
    (∀ first last : Option DateToken,
      (∀ token ∈ first, token.Fits) → (∀ token ∈ last, token.Fits) →
      ds.guardedRange first last = unstopped (ds.range first last) ∧
      (∀ start stop, ds.range first last = .ok (start, stop) →
        start < stop ∧ stop ≤ ds.length) ∧
      ∀ row,
        (∀ kind, ds.guardedAggregate kind row first last =
            unstopped (ds.aggregate kind row first last) ∧
          ds.aggregate kind row first last ≠ .error (.emptyRange "" "")) ∧
        ds.guardedHistogram row first last = unstopped (ds.histogram row first last)) ∧
    ds.guardedRecords = unstopped (.ok ds.records) := by
  refine ⟨fun index hfits => ?_, fun token hfits => guardedResolveDate_eq hfits,
    fun first last hfirst hlast => ?_, hds.guardedRecords_eq⟩
  · refine ⟨guardedRelativeIndex_eq hfits.1 _, exists_relativeIndex_iff hfew, fun k hk => ?_⟩
    exact ⟨(relativeIndex_eq_some_iff.mp hk).2.1, relativeIndex_modEq hk⟩
  · refine ⟨guardedRange_eq hfew hfirst hlast, fun start stop hrange => ?_, fun row => ?_⟩
    · obtain ⟨hlt, hin, -⟩ := range_eq_ok hrange
      exact ⟨hlt, hin⟩
    · exact ⟨fun kind => ⟨hds.guardedAggregate_eq hfew hfirst hlast kind,
        hds.aggregate_ne_emptyRange kind⟩, hds.guardedHistogram_eq hfew hfirst hlast⟩

/-- The least and the greatest place, a date that is no text, and a range of the last day alone. -/
theorem guarded_never_stops_at_extremes :
    let ds : Dataset := ⟨[⟨"date", ["2024-04-24", "2024-04-25", "2024-04-26"]⟩,
      ⟨"t", ["75", "80", "65"]⟩]⟩
    ds.WellFormed ∧
      guardedRelativeIndex (-9223372036854775808) ds.length = unstopped (.ok none) ∧
      ds.guardedResolveDate (.index 9223372036854775807) =
        unstopped (.error (.dateIndexOutOfRange 9223372036854775807 3)) ∧
      ds.guardedAggregate .value "t" (some (.index (-1))) (some (.iso "")) =
        unstopped (.ok 65) ∧
      ds.guardedHistogram "t" (some (.index (-1))) (some (.index 2)) =
        unstopped (.ok [("2024-04-26", 65)]) := by
  intro ds
  have hds : ds.WellFormed := (check_eq_ok_iff _).mp (by decide)
  obtain ⟨hplaces, hdates, hranges, -⟩ := guarded_never_stops hds (by decide)
  have hfits (place : Int) (hlow : -9223372036854775808 ≤ place)
      (hhigh : place < 9223372036854775808) : (DateToken.index place).Fits :=
    ⟨hlow, hhigh⟩
  have hlastDay : ∀ token ∈ some (DateToken.index (-1)), token.Fits := by
    rintro token ⟨⟩
    exact hfits (-1) (by decide) (by decide)
  have hempty : ∀ token ∈ some (DateToken.iso ""), token.Fits := by
    rintro token ⟨⟩
    exact trivial
  have hthird : ∀ token ∈ some (DateToken.index 2), token.Fits := by
    rintro token ⟨⟩
    exact hfits 2 (by decide) (by decide)
  obtain ⟨-, -, hvalue⟩ := hranges _ _ hlastDay hempty
  obtain ⟨-, -, hbars⟩ := hranges _ _ hlastDay hthird
  refine ⟨hds, ?_, ?_, ?_, ?_⟩
  · rw [(hplaces (-9223372036854775808) (hfits _ (by decide) (by decide))).1]
    rfl
  · rw [hdates _ (hfits 9223372036854775807 (by decide) (by decide))]
    rfl
  · rw [((hvalue "t").1 .value).1]
    exact congrArg unstopped (by decide +kernel)
  · rw [(hbars "t").2]
    exact congrArg unstopped (by decide +kernel)

end Dataset

end Almanac
