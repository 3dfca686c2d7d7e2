import Almanac.Json.Printer
import Almanac.Json.Reader
import Almanac.Proofs.Traversal

/-!
A quoted text reads back, whatever characters it holds. Each character is written in one of four
ways, and each way is taken back in one step.
-/

namespace Almanac.Json

theorem hexValue?_hexDigit : ∀ n < 16, hexValue? (hexDigit n) = some n := by decide

/-- A character below the blank, written with four hexadecimal digits. -/
theorem readEscape?_unit {c : Char} (h : c.toNat < 0x20) (more : List Char) :
    readEscape? ('u' :: '0' :: '0' :: hexDigit (c.toNat / 16) :: hexDigit (c.toNat % 16) :: more) =
      some (some c, more) := by
  have hzero : hexValue? '0' = some 0 := by decide
  have hhigh := hexValue?_hexDigit (c.toNat / 16) (by omega)
  have hlow := hexValue?_hexDigit (c.toNat % 16) (by omega)
  have hunit : c.toNat / 16 * 16 + c.toNat % 16 = c.toNat := by omega
  simp only [readEscape?, readUnicode?, readUnit?, hzero, hhigh, hlow, Option.bind_eq_bind,
    Option.bind_some, Option.pure_def, Nat.zero_mul, Nat.zero_add, hunit]
  rw [if_neg (by simp; omega), if_neg (by simp; omega), Char.ofNat_toNat]

/-- A backslash takes the escape after it. -/
theorem readCharacters?_backslash (steps : Nat) {cs more : List Char} {c : Char}
    (h : readEscape? cs = some (some c, more)) :
    readCharacters? (steps + 1) ('\\' :: cs) =
      (readCharacters? steps more).map fun found => (some c :: found.1, found.2) := by
  rw [readCharacters?, h, Option.bind_eq_bind, Option.bind_some]
  dsimp only
  cases readCharacters? steps more <;> rfl

/-- An escaped character is read back in one step. -/
theorem readCharacters?_escaped (steps : Nat) (c : Char) (more : List Char) :
    readCharacters? (steps + 1) (escaped c ++ more) =
      (readCharacters? steps more).map fun found => (some c :: found.1, found.2) := by
  have hsimple : ∀ letter, simpleEscape? letter = some c → letter ≠ 'u' →
      readCharacters? (steps + 1) ('\\' :: letter :: more) =
        (readCharacters? steps more).map fun found => (some c :: found.1, found.2) := by
    intro letter hletter hu
    refine readCharacters?_backslash steps ?_
    rw [readEscape?, hletter, Option.map_some]
    exact hu
  unfold escaped
  split
  · exact hsimple '"' (by simp [*, simpleEscape?]) (by decide)
  split
  · exact hsimple '\\' (by simp [*, simpleEscape?]) (by decide)
  split
  · exact hsimple 'b' (by simp [*, simpleEscape?]) (by decide)
  split
  · exact hsimple 'f' (by simp [*, simpleEscape?]) (by decide)
  split
  · exact hsimple 'n' (by simp [*, simpleEscape?]) (by decide)
  split
  · exact hsimple 'r' (by simp [*, simpleEscape?]) (by decide)
  split
  · exact hsimple 't' (by simp [*, simpleEscape?]) (by decide)
  split
  · exact readCharacters?_backslash steps (readEscape?_unit ‹_› more)
  · simp [readCharacters?, *]

/-- The characters of a quoted text are read back, up to the quote behind them. -/
theorem readCharacters?_quoted (cs rest : List Char) {steps : Nat}
    (h : (cs.flatMap escaped).length ≤ steps) :
    readCharacters? steps (cs.flatMap escaped ++ '"' :: rest) = some (cs.map some, rest) := by
  induction cs generalizing steps with
  | nil => cases steps <;> rfl
  | cons c cs ih =>
    have hpos : 0 < (escaped c).length := by
      unfold escaped
      repeat' split
      all_goals simp
    rw [List.flatMap_cons, List.length_append] at h
    obtain ⟨more, rfl⟩ : ∃ more, steps = more + 1 := ⟨steps - 1, by omega⟩
    rw [List.flatMap_cons, List.append_assoc, readCharacters?_escaped, ih (by omega)]
    rfl

/-- A quoted text is read back after its opening quote. -/
theorem readText?_quoted (text : String) (rest : List Char) :
    readText? (text.toList.flatMap escaped ++ '"' :: rest) = some (some text, rest) := by
  have hsome : (text.toList.map some).mapM id = some text.toList :=
    mapM_map_eq_some fun _ _ => rfl
  rw [readText?, readCharacters?_quoted _ _ (by simp), Option.map_some]
  simp only [hsome, Option.map_some, String.ofList_toList]

end Almanac.Json
