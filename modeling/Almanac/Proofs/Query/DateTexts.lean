import Almanac.Proofs.Decimal.Integer
import Almanac.Proofs.Query.Reading

/-!
The two readings of a date. A text that stands by itself is measured in bytes and an argument of a
query in characters, which makes no difference, because every text that is read as a date has as
many of one as of the other. Both readings take an ISO date and a place in one or two characters.
A minus and two digits are a place by themselves only: as an argument they are too long.
-/

namespace Almanac

theorem Text.width_eq_length {cs : List Char} (h : ∀ c ∈ cs, c.utf8Size = 1) :
    width cs = cs.length := by
  induction cs with
  | nil => rfl
  | cons c rest ih =>
    obtain ⟨hc, hrest⟩ := List.forall_mem_cons.mp h
    rw [width, hc, ih hrest, List.length_cons, Nat.add_comm]

namespace DateToken

/-- A text by itself is read as an ISO date, or as a place of one or two characters, or of three
if it starts with a minus. -/
theorem parse?_eq_some_iff {text : String} {token : DateToken} :
    parse? text = some token ↔
      (text.length = 1 ∨ text.length = 2 ∨ text.length = 3 ∧ text.toList.head? = some '-') ∧
          (∃ place, Decimal.readInteger? text.toList = some place ∧ token = .index place) ∨
        isIsoDate text = true ∧ token = .iso text := by
  have hplace {place : Int} (h : Decimal.readInteger? text.toList = some place) :
      Text.byteLength text = text.length := by
    rw [Text.byteLength, Text.width_eq_length (Decimal.of_readInteger? h).2, String.length_toList]
  have hiso (h : isIsoDate text = true) :
      Text.byteLength text = text.length ∧ text.length = 10 := by
    obtain ⟨hlength, hchars, -⟩ := Argument.of_isIsoDate h
    refine ⟨?_, hlength⟩
    rw [Text.byteLength, Text.width_eq_length, String.length_toList]
    intro c hc
    rcases hchars c hc with hdigit | rfl
    · exact Decimal.utf8Size_of_isDigit hdigit
    · decide
  constructor
  · intro h
    unfold parse? at h
    dsimp only at h
    split at h
    · split at h
      · rename_i hdate
        exact .inr ⟨hdate, (Option.some.inj h).symm⟩
      · cases h
    · rename_i hwidth
      obtain ⟨place, hread, rfl⟩ := Option.map_eq_some_iff.mp h
      exact .inl ⟨.inl ((hplace hread).symm.trans hwidth), place, hread, rfl⟩
    · rename_i hwidth
      obtain ⟨place, hread, rfl⟩ := Option.map_eq_some_iff.mp h
      exact .inl ⟨.inr (.inl ((hplace hread).symm.trans hwidth)), place, hread, rfl⟩
    · rename_i hwidth
      split at h
      · rename_i hminus
        obtain ⟨place, hread, rfl⟩ := Option.map_eq_some_iff.mp h
        exact .inl ⟨.inr (.inr ⟨(hplace hread).symm.trans hwidth, hminus⟩), place, hread, rfl⟩
      · cases h
    · cases h
  · intro h
    rcases h with ⟨hlength, place, hread, rfl⟩ | ⟨hdate, rfl⟩
    · have hwidth := hplace hread
      rcases hlength with hlength | hlength | ⟨hlength, hminus⟩ <;>
        rw [hlength] at hwidth
      · simp [parse?, hwidth, hread]
      · simp [parse?, hwidth, hread]
      · simp [parse?, hwidth, hread, hminus]
    · obtain ⟨hwidth, hlength⟩ := hiso hdate
      rw [hlength] at hwidth
      simp [parse?, hwidth, hdate]

/-- Three characters are read if they are a minus and two digits. -/
theorem parse?_eq_some_iff_of_three {text : String} (h : text.length = 3) {token : DateToken} :
    parse? text = some token ↔ ∃ digits, text.toList = '-' :: digits ∧ Decimal.IsDigits digits ∧
      token = .index (-(Decimal.naturalOf digits : Int)) := by
  rw [parse?_eq_some_iff]
  constructor
  · intro hread
    rcases hread with ⟨hminus, place, hplace, rfl⟩ | ⟨hiso, -⟩
    · have hhead : text.toList.head? = some '-' := by
        rcases hminus with h1 | h2 | hminus
        · omega
        · omega
        · exact hminus.2
      obtain ⟨negative, digits, hsplit, hdigits, hvalue⟩ :=
        Decimal.readInteger?_eq_some_iff.mp hplace
      obtain ⟨rest, hrest⟩ := List.head?_eq_some_iff.mp hhead
      rw [hrest] at hsplit
      obtain ⟨rfl, rfl⟩ := Prod.mk.inj hsplit
      exact ⟨rest, hrest, hdigits, congrArg _ hvalue⟩
    · rw [(Argument.of_isIsoDate hiso).1] at h
      cases h
  · intro hdigits
    obtain ⟨digits, htext, hdigits, rfl⟩ := hdigits
    refine .inl ⟨.inr (.inr ⟨h, by rw [htext]; rfl⟩), _, ?_, rfl⟩
    exact Decimal.readInteger?_eq_some_iff.mpr ⟨true, digits, by rw [htext]; rfl, hdigits, rfl⟩

end DateToken

namespace Argument

variable {days : Nat} {param : Param}

theorem readDate_iff_parse? {text : String} {date : DateToken} :
    readDate days text = .ok date ↔
      text.length ≠ 3 ∧ DateToken.parse? text = some date ∧
        ∀ place, date = .index place → -(days : Int) ≤ place ∧ place < days := by
  rw [readDate_eq_ok_iff, DateToken.parse?_eq_some_iff]
  constructor
  · intro h
    rcases h with ⟨hshort, place, hread, hbounds, rfl⟩ | ⟨hlength, hiso, rfl⟩
    · refine ⟨by omega, .inl ⟨hshort.imp id .inl, place, hread, rfl⟩, fun other hother => ?_⟩
      obtain rfl := DateToken.index.inj hother
      exact hbounds
    · exact ⟨by omega, .inr ⟨hiso, rfl⟩, fun other hother => by cases hother⟩
  · intro h
    obtain ⟨hthree, ⟨hshort, place, hread, rfl⟩ | ⟨hiso, rfl⟩, hbounds⟩ := h
    · exact .inl ⟨by omega, place, hread, hbounds place rfl, rfl⟩
    · exact .inr ⟨(of_isIsoDate hiso).1, hiso, rfl⟩

/-- A date parameter is bound to exactly the date that the text is read as by itself, as long as
the text has not three characters and a place is one among the days. Three characters are too long
for an argument, whatever they are; by themselves they are read if they are a minus and two digits,
as a place that counts back from the last day. -/
theorem bind_date_iff_parse? (hkind : param.kind = .date) (days : Nat) (command : String)
    (nested : Bool) (token : Token) :
    (∀ date, (∃ a, bind days command nested param token = .ok a ∧ a.value = .date date) ↔
      token.text.length ≠ 3 ∧ DateToken.parse? token.text = some date ∧
        ∀ place, date = .index place → -(days : Int) ≤ place ∧ place < days) ∧
      (token.text.length = 3 →
        bind days command nested param token = .error
          ⟨.badArgument command param.name token.text (.dateLength 3), nested, token.span⟩ ∧
        ∀ date, DateToken.parse? token.text = some date ↔ ∃ digits,
          token.text.toList = '-' :: digits ∧ Decimal.IsDigits digits ∧
            date = .index (-(Decimal.naturalOf digits : Int))) := by
  constructor
  · intro date
    rw [← readDate_iff_parse?, bind, hkind, readValue]
    cases readDate days token.text <;> simp [Except.map]
  · intro hthree
    refine ⟨?_, fun date => DateToken.parse?_eq_some_iff_of_three hthree⟩
    have hread : readDate days token.text = .error (.dateLength 3) := by
      rw [readDate, hthree]
      rfl
    simp only [bind, hkind, readValue, hread, Except.map]

/-- The tenth day from the last cannot be named by its place. -/
theorem not_bind_minus_ten :
    ¬ ((∃ a, bind 14 "min" false (.omittable "start" .date) ⟨"-10", 8⟩ = .ok a ∧
        a.value = .date (.index (-10))) ↔
      DateToken.parse? "-10" = some (.index (-10)) ∧
        ∀ place, DateToken.index (-10) = .index place → -14 ≤ place ∧ place < 14) := by
  have hparse : DateToken.parse? "-10" = some (.index (-10)) := by decide +kernel
  have hrefused : bind 14 "min" false (.omittable "start" .date) ⟨"-10", 8⟩ = .error
      ⟨.badArgument "min" "start" "-10" (.dateLength 3), false, ⟨8, 11⟩⟩ := by
    rfl
  intro h
  obtain ⟨a, ha, -⟩ := h.mpr ⟨hparse, fun place hplace => by
    obtain rfl := DateToken.index.inj hplace
    decide⟩
  rw [hrefused] at ha
  cases ha

theorem bind_date_iff_parse?_minus_nine :
    (Param.omittable "start" .date).kind = .date ∧
      (∃ a, bind 14 "min" false (.omittable "start" .date) ⟨"-9", 8⟩ = .ok a ∧
        a.value = .date (.index (-9))) ∧
      bind 14 "min" false (.omittable "start" .date) ⟨"-10", 8⟩ = .error
        ⟨.badArgument "min" "start" "-10" (.dateLength 3), false, ⟨8, 11⟩⟩ := by
  have hnine : DateToken.parse? "-9" = some (.index (-9)) := by decide +kernel
  refine ⟨rfl, ?_, ?_⟩
  · refine ((bind_date_iff_parse? rfl 14 "min" false ⟨"-9", 8⟩).1 _).mpr
      ⟨by decide, hnine, fun place hplace => ?_⟩
    obtain rfl := DateToken.index.inj hplace
    decide
  · exact ((bind_date_iff_parse? rfl 14 "min" false ⟨"-10", 8⟩).2 (by decide)).1

end Argument

end Almanac
