import Almanac.Proofs.Dataset.WrittenForm
import Almanac.Proofs.Evaluation.Protocol

/-!
The days of a comparison with the archive. The dataset reads its days by position, while the
archive is asked for dates, and each finds its days from the measure on its own: a day that is
left out is a boundary of the range to the one and a place to the other, and a date is looked up
by the one and passed on by the other. Where the dataset has an answer, both mean the same days.
-/

namespace Almanac

namespace Dataset

variable {ds : Dataset} {token : DateToken} {first last : Option DateToken} {a b : Nat}

/-- A token that refers to a day resolves to the date of that day. A date is not looked up, but
the day it refers to has it. -/
theorem exists_resolveDate_of_position (h : token.position? ds.dates = some a) :
    ∃ date, ds.dates[a]? = some date ∧ ds.resolveDate token = .ok date := by
  have hlt := DateToken.position?_lt h
  refine ⟨ds.dates[a], List.getElem?_eq_getElem hlt, ?_⟩
  cases token with
  | index place =>
    rw [resolveDate, dateIndex_eq_ok_iff.mpr h]
    simp [List.getD_eq_getElem?_getD, hlt]
  | iso date =>
    obtain ⟨_, hdate, _⟩ := List.findIdx?_eq_some_iff_getElem.mp h
    rw [resolveDate, of_decide_eq_true hdate]

/-- The first day for the archive stands where the range starts; one that is left out becomes the
place of the first day there is. -/
theorem StartsOn.position_firstDay {m : Measure} (h : ds.StartsOn a m.first)
    (hlt : a < ds.length) (hfew : ds.length < placeLimit) :
    m.firstDay.position? ds.dates = some a := by
  unfold Measure.firstDay
  cases hfirst : m.first with
  | none =>
    rw [hfirst] at h
    obtain rfl : a = 0 := h
    exact relativeIndex_eq_some_iff.mpr ⟨hfew, hlt, .inl rfl⟩
  | some token => rwa [hfirst] at h

theorem lastDay_of_ne_value {m : Measure} (hkind : m.kind ≠ .value) :
    m.lastDay = m.last.getD (.index (-1)) := by
  unfold Measure.lastDay
  split
  · exact absurd ‹_› hkind
  · rfl

theorem EndsOn.position_lastDay {m : Measure} (h : ds.EndsOn b m.last) (hkind : m.kind ≠ .value)
    (hfew : ds.length < placeLimit) : m.lastDay.position? ds.dates = some b := by
  have hlt := h.lt
  rw [lastDay_of_ne_value hkind]
  cases hlast : m.last with
  | none =>
    rw [hlast] at h
    -- Places count back from the last day, so that the last one is at minus one.
    have hend : b + 1 = ds.length := h
    have hplace : (b : Int) = ds.length + -1 := by omega
    exact relativeIndex_eq_some_iff.mpr ⟨hfew, hlt, .inr hplace⟩
  | some token => rwa [hlast] at h

/-! The values of the days -/

/-- The numbers of a row are its texts on those days, read one by one. -/
theorem exists_texts_of_numbers (hds : ds.WellFormed) {row : String} {days : Nat × Nat}
    (hin : days.2 ≤ ds.length) {numbers : List Float} (h : ds.numbers row days = .ok numbers) :
    ∃ texts, ds.row? row = some texts ∧
      List.Forall₂ (fun text number => Decimal.readFinite? text.toList = some number)
        (slice texts days) numbers := by
  rw [Dataset.numbers] at h
  split at h
  · cases h
  · rename_i texts hrow
    have htexts : days.2 ≤ texts.length := (hds.length_of_row? hrow) ▸ hin
    have hsame : (slice texts days).length ≤ (slice ds.dates days).length := by
      rw [length_slice htexts, length_slice hin]
    have hread := mapM_eq_ok_iff.mp h
    simp only [readNumber_eq_ok_iff] at hread
    refine ⟨texts, hrow, ?_⟩
    rw [← List.map_snd_zip hsame, List.forall₂_map_left_iff]
    exact hread

/-- The values of the days from `a` to `b`, and of no others, are read as numbers and reduce
to `x`. -/
structure Reduces (ds : Dataset) (m : Measure) (a b : Nat) (x : Float) : Prop where
  days : ds.aggregateDays m.kind m.first m.last = .ok (a, b + 1)
  ordered : a ≤ b
  inside : b < ds.length
  reduced : ∃ texts numbers, ds.row? m.row = some texts ∧
    List.Forall₂ (fun text number => Decimal.readFinite? text.toList = some number)
      (slice texts (a, b + 1)) numbers ∧
    m.kind.reduce? numbers = some x

theorem exists_reduces_of_measure (hds : ds.WellFormed) {m : Measure} {x : Float}
    (h : ds.measure m = .ok x) :
    ∃ a b, ds.Reduces m a b x ∧ ds.StartsOn a m.first ∧
      if m.kind = .value then b = a else ds.EndsOn b m.last := by
  rw [measure, aggregate] at h
  simp only [bind_eq_ok_iff] at h
  obtain ⟨days, hdays, numbers, hnumbers, hreduce⟩ := h
  obtain ⟨a, b, rfl, hle, hlt, hstart, hend⟩ := exists_of_aggregateDays_eq_ok hdays
  have hin : (a, b + 1).2 ≤ ds.length := hlt
  obtain ⟨texts, hrow, hread⟩ := exists_texts_of_numbers hds hin hnumbers
  split at hreduce
  · rename_i found hfound
    obtain rfl := Except.ok.inj hreduce
    exact ⟨a, b, ⟨hdays, hle, hlt, texts, numbers, hrow, hread, hfound⟩, hstart, hend⟩
  · cases hreduce

end Dataset

namespace Environment

variable {env : Environment} {m : Measure} {x : Float}

/-- The archive is asked for exactly the days that the dataset was measured on. If the dataset
has an answer, and no more days than places can count, then the days of the archive can be named,
and they are the dates of the first and of the last day whose values were reduced, a single value
being of one day. -/
theorem archiveDays_of_measure (hds : env.dataset.WellFormed)
    (hfew : env.dataset.length < placeLimit) (h : env.dataset.measure m = .ok x) :
    ∃ a b first last, env.dataset.Reduces m a b x ∧
      env.dataset.dates[a]? = some first ∧ env.dataset.dates[b]? = some last ∧
      env.dataset.archiveDays m = .ok (first, last) ∧
      (m.kind = .value → a = b) ∧
      ∀ q location print, Action.ofQuery q = .ok (.compareWith location m) →
        ∀ asked, .archive asked ∈ (env.evaluate print q).calls ↔
          ∃ place, env.place location = .ok place ∧
            asked = ⟨place, m.kind, m.row, first, last⟩ := by
  obtain ⟨a, b, hreduces, hstart, hend⟩ := Dataset.exists_reduces_of_measure hds h
  have hfirstDay : m.firstDay.position? env.dataset.dates = some a :=
    hstart.position_firstDay (Nat.lt_of_le_of_lt hreduces.ordered hreduces.inside) hfew
  have hlastDay : m.lastDay.position? env.dataset.dates = some b := by
    split at hend
    · rename_i hkind
      have hday : m.lastDay = m.firstDay := by rw [Measure.lastDay, hkind]
      rw [hday, hend, hfirstDay]
    · exact hend.position_lastDay ‹_› hfew
  obtain ⟨first, hfirst, hresolveFirst⟩ := Dataset.exists_resolveDate_of_position hfirstDay
  obtain ⟨last, hlast, hresolveLast⟩ := Dataset.exists_resolveDate_of_position hlastDay
  refine ⟨a, b, first, last, hreduces, hfirst, hlast,
    Dataset.archiveDays_eq_ok_iff.mpr ⟨hresolveFirst, hresolveLast⟩, fun hkind => ?_, ?_⟩
  · rw [if_pos hkind] at hend
    exact hend.symm
  · intro q location print haction asked
    have hmeasured : ∃ x, env.measure m = .ok x := ⟨x, mapError_eq_ok_iff.mpr h⟩
    rw [calls_evaluate haction, archive_mem_calls_compareWith]
    simp [hmeasured, hresolveFirst, hresolveLast]

def repeated : Environment where
  table := CommandTable.builtin
  dataset :=
    ⟨[⟨"date", ["2024-04-24", "2024-04-25", "2024-04-25", "2024-04-26"]⟩,
      ⟨"t", ["snow", "75", "80", "65"]⟩]⟩
  services := ⟨fun _ => .ok ⟨39, -95⟩, fun _ => .ok 60⟩

/-- A date stands for the first day that has it, and the last place for the last day. -/
theorem archiveDays_of_repeated_date :
    repeated.dataset.WellFormed ∧
      repeated.dataset.archiveDays
          ⟨.max, "t", some (.iso "2024-04-25"), some (.index (-1)), ⟨18, 39⟩⟩ =
        .ok ("2024-04-25", "2024-04-26") ∧
      ∃ a b, repeated.dataset.Reduces
          ⟨.max, "t", some (.iso "2024-04-25"), some (.index (-1)), ⟨18, 39⟩⟩ a b 80 ∧
        repeated.dataset.dates[a]? = some "2024-04-25" ∧
        repeated.dataset.dates[b]? = some "2024-04-26" := by
  have hds : repeated.dataset.WellFormed :=
    (Dataset.check_eq_ok_iff _).mp (by decide +kernel)
  obtain ⟨a, b, first, last, hreduces, hfirst, hlast, hdays, -, -⟩ :=
    archiveDays_of_measure hds (by decide +kernel)
      (m := ⟨.max, "t", some (.iso "2024-04-25"), some (.index (-1)), ⟨18, 39⟩⟩) (x := 80)
      (by decide +kernel)
  have hnamed : repeated.dataset.archiveDays
      ⟨.max, "t", some (.iso "2024-04-25"), some (.index (-1)), ⟨18, 39⟩⟩ =
        .ok ("2024-04-25", "2024-04-26") := by
    decide +kernel
  obtain ⟨rfl, rfl⟩ := Prod.mk.inj (Except.ok.inj (hdays.symm.trans hnamed))
  exact ⟨hds, hnamed, a, b, hreduces, hfirst, hlast⟩

end Environment

end Almanac
