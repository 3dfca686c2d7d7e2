import Almanac.Json.Printer
import Almanac.Json.Reader
import Mathlib.Data.List.Basic
import Mathlib.Data.List.TakeWhile

/-!
The numerals that the printer writes are read back to their end. A numeral ends before the first
character that it could not hold, so that what stands behind it does not change how it is read.
-/

namespace Almanac.Json

def isNumeric (c : Char) : Bool :=
  c.isDigit || c = '.' || c = 'e' || c = 'E' || c = '+' || c = '-'

def Ends (cs : List Char) : Prop := ∀ c ∈ cs.head?, isNumeric c = false

theorem isNumeric_of_isDigit {c : Char} (h : c.isDigit = true) : isNumeric c = true := by
  simp [isNumeric, h]

theorem Ends.not_mem_head? {cs : List Char} (h : Ends cs) {c : Char} (hc : isNumeric c = true) :
    c ∉ cs.head? := by
  intro hmem
  rw [h c hmem] at hc
  cases hc

def readUnsigned? (negative : Bool) (cs : List Char) : Option (Numeral × List Char) := do
  let whole := cs.takeWhile Char.isDigit
  if whole.isEmpty || (whole.head? == some '0' && whole.length > 1) then none
  let (fraction, afterFraction) ← readFraction? (cs.dropWhile Char.isDigit)
  let (power, rest) ← readPower? afterFraction
  pure (⟨negative, whole, fraction, power, cs.length - rest.length == whole.length⟩, rest)

theorem readNumeral?_minus (cs : List Char) :
    readNumeral? ('-' :: cs) = readUnsigned? true cs := rfl

theorem readNumeral?_cons {c : Char} (hc : c ≠ '-') (cs : List Char) :
    readNumeral? (c :: cs) = readUnsigned? false (c :: cs) := by
  have hsign : ((c :: cs).head? == some '-') = false := by simpa using hc
  unfold readNumeral?
  rw [hsign]
  rfl

/-! What a numeral leaves over -/

section

variable {cs rest : List Char}

theorem readFraction?_suffix {digits : List Char} (h : readFraction? cs = some (digits, rest)) :
    rest <:+ cs := by
  unfold readFraction? at h
  split at h
  · dsimp only at h
    split at h
    · cases h
    · obtain ⟨-, rfl⟩ := Prod.mk.inj (Option.some.inj h)
      exact (List.dropWhile_suffix _).trans (List.suffix_cons _ _)
  · obtain ⟨-, rfl⟩ := Prod.mk.inj (Option.some.inj h)
    exact List.suffix_rfl

theorem splitSign_suffix (cs : List Char) : (Decimal.splitSign cs).2 <:+ cs := by
  unfold Decimal.splitSign
  split
  · exact List.suffix_cons _ _
  · exact List.suffix_cons _ _
  · exact List.suffix_rfl

theorem readPower?_suffix {power : Int} (h : readPower? cs = some (power, rest)) :
    rest <:+ cs := by
  unfold readPower? at h
  split at h
  · split at h
    · dsimp only at h
      split at h
      · cases h
      · obtain ⟨-, rfl⟩ := Prod.mk.inj (Option.some.inj h)
        exact ((List.dropWhile_suffix _).trans (splitSign_suffix _)).trans (List.suffix_cons _ _)
    · obtain ⟨-, rfl⟩ := Prod.mk.inj (Option.some.inj h)
      exact List.suffix_rfl
  · obtain ⟨-, rfl⟩ := Prod.mk.inj (Option.some.inj h)
    exact List.suffix_rfl

theorem readUnsigned?_suffix {negative : Bool} {n : Numeral}
    (h : readUnsigned? negative cs = some (n, rest)) : rest <:+ cs := by
  simp only [readUnsigned?] at h
  split at h
  · cases h
  · obtain ⟨⟨fraction, afterFraction⟩, hfraction, hrest⟩ := Option.bind_eq_some_iff.mp h
    obtain ⟨⟨power, final⟩, hpower, hdone⟩ := Option.bind_eq_some_iff.mp hrest
    obtain ⟨-, rfl⟩ := Prod.mk.inj (Option.some.inj hdone)
    exact ((readPower?_suffix hpower).trans (readFraction?_suffix hfraction)).trans
      (List.dropWhile_suffix _)

theorem readNumeral?_suffix {n : Numeral} (h : readNumeral? cs = some (n, rest)) :
    rest <:+ cs := by
  cases cs with
  | nil => cases h
  | cons c cs =>
    by_cases hc : c = '-'
    · subst hc
      rw [readNumeral?_minus] at h
      exact (readUnsigned?_suffix h).trans (List.suffix_cons _ _)
    · rw [readNumeral?_cons hc] at h
      exact readUnsigned?_suffix h

end

/-! What stands behind a numeral -/

section

variable {cs rest more : List Char}

theorem digits_append (hmore : Ends more) (cs : List Char) :
    (cs ++ more).takeWhile Char.isDigit = cs.takeWhile Char.isDigit ∧
      (cs ++ more).dropWhile Char.isDigit = cs.dropWhile Char.isDigit ++ more := by
  induction cs with
  | nil =>
    cases more with
    | nil => exact ⟨rfl, rfl⟩
    | cons c more =>
      have hc : ¬c.isDigit = true := fun h => hmore.not_mem_head? (isNumeric_of_isDigit h) rfl
      simp [hc]
  | cons c cs ih => by_cases hc : c.isDigit = true <;> simp [hc, ih]

theorem not_mem_head?_append (hmore : Ends more) {c : Char} (hc : isNumeric c = true)
    (h : c ∉ cs.head?) : c ∉ (cs ++ more).head? := by
  cases cs with
  | nil => exact hmore.not_mem_head? hc
  | cons d cs => exact h

theorem readFraction?_of_not_mem_head? (h : '.' ∉ cs.head?) :
    readFraction? cs = some ([], cs) := by
  unfold readFraction?
  split
  · exact absurd rfl h
  · rfl

theorem readFraction?_append (hmore : Ends more) {digits : List Char}
    (h : readFraction? cs = some (digits, rest)) :
    readFraction? (cs ++ more) = some (digits, rest ++ more) := by
  by_cases hpoint : '.' ∈ cs.head?
  · obtain ⟨after, rfl⟩ := List.head?_eq_some_iff.mp hpoint
    obtain ⟨htake, hdrop⟩ := digits_append hmore after
    simp only [readFraction?, List.cons_append, htake, hdrop] at h ⊢
    split at h
    · cases h
    · rename_i hne
      obtain ⟨rfl, rfl⟩ := Prod.mk.inj (Option.some.inj h)
      rw [if_neg hne]
  · rw [readFraction?_of_not_mem_head? hpoint] at h
    obtain ⟨rfl, rfl⟩ := Prod.mk.inj (Option.some.inj h)
    exact readFraction?_of_not_mem_head? (not_mem_head?_append hmore (by decide) hpoint)

theorem splitSign_append (hmore : Ends more) (cs : List Char) :
    Decimal.splitSign (cs ++ more) =
      ((Decimal.splitSign cs).1, (Decimal.splitSign cs).2 ++ more) := by
  cases cs with
  | nil =>
    have hminus := hmore.not_mem_head? (c := '-') (by decide)
    have hplus := hmore.not_mem_head? (c := '+') (by decide)
    rw [List.nil_append]
    unfold Decimal.splitSign
    split
    · exact absurd rfl hminus
    · exact absurd rfl hplus
    · rfl
  | cons c cs =>
    rw [List.cons_append]
    unfold Decimal.splitSign
    split <;> simp_all

theorem readPower?_of_not_mem_head? (he : 'e' ∉ cs.head?) (hE : 'E' ∉ cs.head?) :
    readPower? cs = some (0, cs) := by
  cases cs with
  | nil => rfl
  | cons c cs =>
    have hc : ¬(c = 'e' || c = 'E') = true := by
      intro h
      rcases (by simpa using h : c = 'e' ∨ c = 'E') with rfl | rfl
      · exact he rfl
      · exact hE rfl
    rw [readPower?, if_neg hc]

theorem readPower?_append (hmore : Ends more) {power : Int}
    (h : readPower? cs = some (power, rest)) :
    readPower? (cs ++ more) = some (power, rest ++ more) := by
  by_cases hletter : 'e' ∈ cs.head? ∨ 'E' ∈ cs.head?
  · obtain ⟨c, after, rfl, hc⟩ :
        ∃ c after, cs = c :: after ∧ (c = 'e' || c = 'E') = true := by
      rcases hletter with hmem | hmem
      · obtain ⟨after, rfl⟩ := List.head?_eq_some_iff.mp hmem
        exact ⟨'e', after, rfl, rfl⟩
      · obtain ⟨after, rfl⟩ := List.head?_eq_some_iff.mp hmem
        exact ⟨'E', after, rfl, rfl⟩
    obtain ⟨htake, hdrop⟩ := digits_append hmore (Decimal.splitSign after).2
    simp only [readPower?, List.cons_append, hc, if_true, splitSign_append hmore, htake,
      hdrop] at h ⊢
    split at h
    · cases h
    · rename_i hne
      obtain ⟨rfl, rfl⟩ := Prod.mk.inj (Option.some.inj h)
      rw [if_neg hne]
  · obtain ⟨he, hE⟩ := not_or.mp hletter
    rw [readPower?_of_not_mem_head? he hE] at h
    obtain ⟨rfl, rfl⟩ := Prod.mk.inj (Option.some.inj h)
    exact readPower?_of_not_mem_head? (not_mem_head?_append hmore (by decide) he)
      (not_mem_head?_append hmore (by decide) hE)

theorem readUnsigned?_append (hmore : Ends more) {negative : Bool} {n : Numeral}
    (h : readUnsigned? negative cs = some (n, rest)) :
    readUnsigned? negative (cs ++ more) = some (n, rest ++ more) := by
  obtain ⟨htake, hdrop⟩ := digits_append hmore cs
  simp only [readUnsigned?, htake, hdrop] at h ⊢
  split at h
  · cases h
  · rename_i hwhole
    obtain ⟨⟨fraction, afterFraction⟩, hfraction, hrest⟩ := Option.bind_eq_some_iff.mp h
    obtain ⟨⟨power, final⟩, hpower, hdone⟩ := Option.bind_eq_some_iff.mp hrest
    obtain ⟨rfl, rfl⟩ := Prod.mk.inj (Option.some.inj hdone)
    have hwritten : (cs ++ more).length - (final ++ more).length = cs.length - final.length := by
      simp only [List.length_append]
      omega
    rw [if_neg hwhole, readFraction?_append hmore hfraction, Option.bind_eq_bind, Option.bind_some,
      readPower?_append hmore hpower, Option.bind_eq_bind, Option.bind_some, hwritten]
    rfl

/-- A numeral is read in the same way before a text that it cannot go on with. -/
theorem readNumeral?_append (hmore : Ends more) {n : Numeral}
    (h : readNumeral? cs = some (n, rest)) :
    readNumeral? (cs ++ more) = some (n, rest ++ more) := by
  cases cs with
  | nil => cases h
  | cons c cs =>
    by_cases hc : c = '-'
    · subst hc
      rw [readNumeral?_minus] at h
      rw [List.cons_append, readNumeral?_minus]
      exact readUnsigned?_append hmore h
    · rw [readNumeral?_cons hc] at h
      rw [List.cons_append, readNumeral?_cons hc, ← List.cons_append]
      exact readUnsigned?_append hmore h

end

/-! Whole numbers -/

/-- Only the digits of zero begin with a zero. -/
theorem head?_toDigits {n : Nat} (h : 0 < n) : (Nat.toDigits 10 n).head? ≠ some '0' := by
  induction n using Nat.strong_induction_on with
  | _ n ih =>
    by_cases hn : n < 10
    · have hdigit : ∀ n < 10, 0 < n → n.digitChar ≠ '0' := by decide
      simpa [Nat.toDigits_of_lt_base hn] using hdigit n hn h
    · rw [Nat.toDigits_of_base_le (by decide) (by omega),
        List.head?_append_of_ne_nil _ Nat.toDigits_ne_nil]
      exact ih (n / 10) (by omega) (by omega)

theorem naturalOf_toDigits (n : Nat) : Decimal.naturalOf (Nat.toDigits 10 n) = n := by
  have hdigits := Nat.ofDigitChars_ten_toDigits (n := n)
  rwa [Nat.ofDigitChars_eq_foldl] at hdigits

theorem readUnsigned?_toDigits (negative : Bool) (n : Nat) :
    readUnsigned? negative (Nat.toDigits 10 n) =
      some (⟨negative, Nat.toDigits 10 n, [], 0, true⟩, []) := by
  have hdigits : ∀ c ∈ Nat.toDigits 10 n, c.isDigit = true := fun c hc =>
    Nat.isDigit_of_mem_toDigits (by decide) (by decide) hc
  have htake : (Nat.toDigits 10 n).takeWhile Char.isDigit = Nat.toDigits 10 n :=
    List.takeWhile_eq_self_iff.mpr hdigits
  have hdrop : (Nat.toDigits 10 n).dropWhile Char.isDigit = [] :=
    List.dropWhile_eq_nil_iff.mpr hdigits
  have hwhole : ((Nat.toDigits 10 n).isEmpty || ((Nat.toDigits 10 n).head? == some '0' &&
      (Nat.toDigits 10 n).length > 1)) = false := by
    rcases Nat.eq_zero_or_pos n with rfl | hpos
    · rfl
    · simp [Nat.toDigits_ne_nil, head?_toDigits hpos]
  simp only [readUnsigned?, htake, hdrop, hwhole]
  simp [readFraction?, readPower?]

theorem isNumeric_of_mem_toDigits (n : Nat) : ∀ c ∈ Nat.toDigits 10 n, isNumeric c = true :=
  fun _ hc => isNumeric_of_isDigit (Nat.isDigit_of_mem_toDigits (by decide) (by decide) hc)

theorem toList_toString_ofNat (n : Nat) :
    (toString (Int.ofNat n)).toList = Nat.toDigits 10 n := Nat.toList_repr

theorem toList_toString_negSucc (n : Nat) :
    (toString (Int.negSucc n)).toList = '-' :: Nat.toDigits 10 (n + 1) := by
  have htext : toString (Int.negSucc n) = "-" ++ (n + 1).repr := rfl
  rw [htext, String.toList_append, Nat.toList_repr]
  rfl

theorem isNumeric_of_mem_toString (n : Int) :
    ∀ c ∈ (toString n).toList, isNumeric c = true := by
  cases n with
  | ofNat m =>
    rw [toList_toString_ofNat]
    exact isNumeric_of_mem_toDigits m
  | negSucc m =>
    rw [toList_toString_negSucc]
    exact List.forall_mem_cons.mpr ⟨by decide, isNumeric_of_mem_toDigits (m + 1)⟩

/-- A whole number that fits into a word is read back. -/
theorem exists_readNumeral?_toString {n : Int} (hlow : -(wordLimit : Int) ≤ 2 * n)
    (hhigh : n < wordLimit) :
    ∃ numeral,
      readNumeral? (toString n).toList = some (numeral, []) ∧ numeral.toJson = .int n := by
  cases n with
  | ofNat m =>
    refine ⟨⟨false, Nat.toDigits 10 m, [], 0, true⟩, ?_, ?_⟩
    · have hne : Nat.toDigits 10 m ≠ [] := Nat.toDigits_ne_nil
      obtain ⟨c, digits, hdigits⟩ := List.exists_cons_of_ne_nil hne
      have hc : c ≠ '-' := by
        rintro rfl
        have hdigit := Nat.isDigit_of_mem_toDigits (by decide) (by decide)
          (hdigits ▸ List.mem_cons_self : '-' ∈ Nat.toDigits 10 m)
        revert hdigit
        decide
      rw [toList_toString_ofNat, hdigits, readNumeral?_cons hc, ← hdigits,
        readUnsigned?_toDigits]
    · have hm : m < wordLimit := by simpa using hhigh
      simp [Numeral.toJson, naturalOf_toDigits, hm]
  | negSucc m =>
    refine ⟨⟨true, Nat.toDigits 10 (m + 1), [], 0, true⟩, ?_, ?_⟩
    · rw [toList_toString_negSucc, readNumeral?_minus, readUnsigned?_toDigits]
    · have hm : 2 * (m + 1) ≤ wordLimit := by omega
      simp [Numeral.toJson, naturalOf_toDigits, hm, Int.negSucc_eq]

/-! Floats -/

theorem isDigit_of_mem_toNumeral {d : Decimal.Scaled} {c : Char} (h : c ∈ d.toNumeral.digits) :
    c.isDigit = true := by
  have hmem : c ∈ Nat.toDigits 10 d.digits :=
    List.mem_reverse.mp ((List.dropWhile_suffix _).mem (List.mem_reverse.mp h))
  exact Nat.isDigit_of_mem_toDigits (by decide) (by decide) hmem

theorem isNumeric_of_mem_zeros (n : Int) : ∀ c ∈ Decimal.zeros n, isNumeric c = true := by
  intro c hc
  rw [(List.mem_replicate.mp hc).2]
  decide

section

variable {layout : Decimal.Layout} {n : Decimal.Numeral}

theorem isNumeric_of_mem_whole : ∀ c ∈ layout.whole, isNumeric c = true := by
  unfold Decimal.Layout.whole
  split <;> exact List.all_eq_true.mp rfl

theorem isNumeric_of_mem_withPoint (h : ∀ c ∈ n.digits, isNumeric c = true) :
    ∀ c ∈ layout.withPoint n, isNumeric c = true := by
  unfold Decimal.Layout.withPoint
  split
  · simp only [List.cons_append, List.forall_mem_cons, List.forall_mem_append]
    exact ⟨by decide, by decide, isNumeric_of_mem_zeros _, h⟩
  split
  · simp only [List.forall_mem_append]
    exact ⟨⟨h, isNumeric_of_mem_zeros _⟩, isNumeric_of_mem_whole⟩
  · simp only [List.forall_mem_append, List.forall_mem_cons]
    exact ⟨fun c hc => h c (List.mem_of_mem_take hc), by decide,
      fun c hc => h c (List.mem_of_mem_drop hc)⟩

theorem isNumeric_of_mem_withExponent (h : ∀ c ∈ n.digits, isNumeric c = true) :
    ∀ c ∈ Decimal.withExponent n, isNumeric c = true := by
  have hfraction : ∀ c ∈ n.digits.drop 1, isNumeric c = true :=
    fun c hc => h c (List.mem_of_mem_drop hc)
  unfold Decimal.withExponent
  simp only [List.forall_mem_append, List.forall_mem_cons]
  refine ⟨⟨fun c hc => h c (List.mem_of_mem_take hc), ?_⟩, by decide, ?_,
    isNumeric_of_mem_toDigits _⟩
  · split
    · simp
    · exact List.forall_mem_cons.mpr ⟨by decide, hfraction⟩
  · split <;> decide

/-- The text of a float holds nothing but what may stand in a numeral. -/
theorem isNumeric_of_mem_render (x : Float) :
    ∀ c ∈ (layout.render x).toList, isNumeric c = true := by
  have hmagnitude : ∀ c ∈ layout.magnitude x, isNumeric c = true := by
    have hdigits : ∀ c ∈ ((Decimal.Binary.ofFloat x).shortest layout.tie).digits,
        isNumeric c = true := fun c hc => isNumeric_of_isDigit (isDigit_of_mem_toNumeral hc)
    unfold Decimal.Layout.magnitude
    dsimp only
    split
    · exact List.forall_mem_cons.mpr ⟨by decide, isNumeric_of_mem_whole⟩
    split
    · exact isNumeric_of_mem_withPoint hdigits
    · exact isNumeric_of_mem_withExponent hdigits
  rw [Decimal.Layout.render, String.toList_ofList]
  refine List.forall_mem_append.mpr ⟨?_, hmagnitude⟩
  split <;> exact List.all_eq_true.mp rfl

end

end Almanac.Json
