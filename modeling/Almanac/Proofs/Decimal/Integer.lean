import Almanac.Decimal.Binary
import Almanac.Decimal.Reading
import Mathlib.Data.List.Basic
import Mathlib.Data.List.Induction

/-!
The texts of integers: digits, with a sign before them or without one. They have one byte for each
character, they end with a digit, and what they stand for is no longer than they are.
-/

namespace Almanac.Decimal

def IsDigits (cs : List Char) : Prop := cs ≠ [] ∧ ∀ c ∈ cs, c.isDigit = true

theorem utf8Size_of_isDigit {c : Char} (h : c.isDigit = true) : c.utf8Size = 1 := by
  rw [Char.utf8Size_eq_one_iff]
  simp only [Char.isDigit, Bool.and_eq_true, decide_eq_true_eq] at h
  exact UInt32.le_trans h.2 (by decide)

/-- What splitting off a sign leaves out takes one byte for each character. -/
theorem exists_sign (cs : List Char) :
    ∃ sign, (∀ c ∈ sign, c.utf8Size = 1) ∧ cs = sign ++ (splitSign cs).2 := by
  unfold splitSign
  split
  · exact ⟨['-'], List.forall_mem_singleton.mpr (by decide), rfl⟩
  · exact ⟨['+'], List.forall_mem_singleton.mpr (by decide), rfl⟩
  · exact ⟨[], by simp, rfl⟩

theorem readInteger?_eq_some_iff {cs : List Char} {n : Int} :
    readInteger? cs = some n ↔ ∃ negative digits, splitSign cs = (negative, digits) ∧
      IsDigits digits ∧ n = if negative then -(naturalOf digits : Int) else naturalOf digits := by
  rcases hsplit : splitSign cs with ⟨negative, digits⟩
  have hnone : (digits.isEmpty || !digits.all Char.isDigit) = true ↔ ¬ IsDigits digits := by
    rw [IsDigits, Bool.or_eq_true, List.isEmpty_iff, Bool.not_eq_true', ← Bool.not_eq_true,
      List.all_eq_true, not_and_or, not_not]
  simp only [readInteger?, hsplit, Prod.mk.injEq, and_assoc, exists_eq_left', exists_and_left]
  by_cases h : IsDigits digits
  · rw [if_neg (mt hnone.mp (not_not_intro h)), and_iff_right h]
    split <;> simp only [Option.some.injEq, eq_comm]
  · rw [if_pos (hnone.mpr h)]
    simp [h]

/-- An integer ends with a digit, and each of its characters takes one byte. -/
theorem of_readInteger? {cs : List Char} {n : Int} (h : readInteger? cs = some n) :
    (∀ c ∈ cs.getLast?, c.isDigit = true) ∧ ∀ c ∈ cs, c.utf8Size = 1 := by
  obtain ⟨negative, digits, hsplit, ⟨hne, hdigits⟩, -⟩ := readInteger?_eq_some_iff.mp h
  obtain ⟨sign, hsign, hcs⟩ := exists_sign cs
  rw [hsplit] at hcs
  subst hcs
  constructor
  · intro c hc
    rw [List.getLast?_append_of_ne_nil sign hne] at hc
    exact hdigits c (List.mem_of_getLast? hc)
  · exact List.forall_mem_append.mpr ⟨hsign, fun c hc => utf8Size_of_isDigit (hdigits c hc)⟩

/-! How large an integer is -/

theorem tenTo_succ (n : Nat) : tenTo (n + 1) = tenTo n * 10 := rfl

theorem tenTo_le {m n : Nat} (h : m ≤ n) : tenTo m ≤ tenTo n :=
  Nat.pow_le_pow_right (by decide) h

theorem naturalOf_lt {digits : List Char} (h : ∀ c ∈ digits, c.isDigit = true) :
    naturalOf digits < tenTo digits.length := by
  induction digits using List.reverseRecOn with
  | nil => decide
  | append_singleton digits c ih =>
    have hvalue : digitValue c ≤ 9 := by
      have hc := h c (by simp)
      simp only [Char.isDigit, Bool.and_eq_true, decide_eq_true_eq] at hc
      have hhigh : c.toNat ≤ '9'.toNat := hc.2
      have hnine : ('9' : Char).toNat = '0'.toNat + 9 := rfl
      rw [digitValue]
      omega
    have hdigits := ih fun d hd => h d (by simp [hd])
    have hstep : naturalOf (digits ++ [c]) = 10 * naturalOf digits + digitValue c := by
      rw [naturalOf, List.foldl_append]
      rfl
    rw [hstep, List.length_append, List.length_singleton, tenTo_succ]
    omega

/-- An integer has no more digits than its text has characters. -/
theorem natAbs_lt_of_readInteger? {cs : List Char} {n : Int} (h : readInteger? cs = some n) :
    n.natAbs < tenTo cs.length := by
  obtain ⟨negative, digits, hsplit, ⟨-, hdigits⟩, rfl⟩ := readInteger?_eq_some_iff.mp h
  obtain ⟨sign, -, hcs⟩ := exists_sign cs
  have hlength : digits.length ≤ cs.length := by
    rw [hcs, hsplit, List.length_append]
    exact Nat.le_add_left _ _
  have hlt : naturalOf digits < tenTo cs.length :=
    Nat.lt_of_lt_of_le (naturalOf_lt hdigits) (tenTo_le hlength)
  cases negative <;> simpa using hlt

end Almanac.Decimal
