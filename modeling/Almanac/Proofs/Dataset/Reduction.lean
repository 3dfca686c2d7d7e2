import Almanac.Dataset.Aggregate
import Mathlib

/-!
What the reductions of a run of finite values are. Finite floats are in a total order, so that the
least and the greatest of them can be told: one by one, the smaller or the larger value is kept.
The average is their sum, from left to right, over their number.
-/

namespace Almanac

/-! The order of finite floats -/

namespace Decimal

open Float.Model (UnpackedFloat)

/-- Where a finite float stands among the others: by its sign, then by its exponent and its
mantissa, which count backwards below zero. -/
def rank : UnpackedFloat → ℤ ×ₗ ℤ ×ₗ ℤ
  | .finite .negative mantissa exponent _ => toLex (-1, toLex (-exponent, -(mantissa : ℤ)))
  | .finite .positive mantissa exponent _ => toLex (1, toLex (exponent, (mantissa : ℤ)))
  | _ => toLex (0, toLex (0, 0))

theorem isLE_then_iff (e₁ e₂ : ℤ) (m₁ m₂ : ℕ) :
    ((compare e₁ e₂).then (compare m₁ m₂)).isLE = true ↔ e₁ < e₂ ∨ e₁ = e₂ ∧ m₁ ≤ m₂ := by
  rcases lt_trichotomy e₁ e₂ with h | rfl | h
  · simp [compare_lt_iff_lt.mpr h, h]
  · simpa using Nat.isLE_compare
  · simp [compare_gt_iff_gt.mpr h, h.ne', not_lt_of_gt h]

theorem isGE_then_iff (e₁ e₂ : ℤ) (m₁ m₂ : ℕ) :
    ((compare e₁ e₂).then (compare m₁ m₂)).isGE = true ↔ e₂ < e₁ ∨ e₂ = e₁ ∧ m₂ ≤ m₁ := by
  rw [← Ordering.isLE_swap, Ordering.swap_then, Int.compare_swap, Nat.compare_swap, isLE_then_iff]

theorem unpacked_le_iff {a b : UnpackedFloat} (ha : a.isFinite = true) (hb : b.isFinite = true) :
    a.le b = true ↔ rank a ≤ rank b := by
  unfold UnpackedFloat.le
  cases a with
  | notANumber => cases ha
  | infinity s => cases ha
  | zero s =>
    cases b with
    | notANumber => cases hb
    | infinity t => cases hb
    | zero t => simp [UnpackedFloat.compare, rank]
    | finite t n f hn => cases t <;> simp [UnpackedFloat.compare, rank, Prod.Lex.le_iff]
  | finite s m e hm =>
    cases b with
    | notANumber => cases hb
    | infinity t => cases hb
    | zero t => cases s <;> simp [UnpackedFloat.compare, rank, Prod.Lex.le_iff]
    | finite t n f hn =>
      cases s <;> cases t <;>
        simp [UnpackedFloat.compare, rank, Prod.Lex.le_iff, isLE_then_iff, isGE_then_iff]
      omega

variable {x y z : Float}

theorem le_iff_rank (hx : x.isFinite = true) (hy : y.isFinite = true) :
    x ≤ y ↔ rank x.toModel.unpack ≤ rank y.toModel.unpack := by
  have hunpacked : x ≤ y ↔ x.toModel.unpack.le y.toModel.unpack = true := by
    change x.le y = true ↔ _
    unfold Float.le
    rw [decide_eq_true_iff]
    exact Iff.rfl
  exact hunpacked.trans (unpacked_le_iff hx hy)

theorem le_or_ge (hx : x.isFinite = true) (hy : y.isFinite = true) : x ≤ y ∨ y ≤ x := by
  rw [le_iff_rank hx hy, le_iff_rank hy hx]
  exact le_total _ _

theorem le_of_le_of_le (hx : x.isFinite = true) (hy : y.isFinite = true) (hz : z.isFinite = true)
    (hxy : x ≤ y) (hyz : y ≤ z) : x ≤ z := by
  rw [le_iff_rank hx hy] at hxy
  rw [le_iff_rank hy hz] at hyz
  exact (le_iff_rank hx hz).mpr (hxy.trans hyz)

theorem add_negZero (format : Float.Model.Format) (a : UnpackedFloat) :
    UnpackedFloat.add format (.zero .negative) a = a := by
  cases a with
  | zero s => cases s <;> rfl
  | _ => rfl

theorem pack_unpack (m : Float.Model) : Float.Model.pack m.unpack = m := by
  obtain ⟨bits, hvalid⟩ := m
  unfold Float.Model.pack Float.Model.unpack
  congr 1
  rw [UnpackedFloat.pack_unpack_of_valid hvalid]

/-- The zero below all others is neutral, unlike the positive one. -/
theorem negZero_add (x : Float) : -0 + x = x := by
  have hzero : (-0 : Float).toModel.unpack = .zero .negative := rfl
  change Float.ofModel (Float.Model.pack (.add _ (-0 : Float).toModel.unpack x.toModel.unpack)) = x
  rw [hzero, add_negZero, pack_unpack]

end Decimal

namespace Aggregate

variable {below : Float → Float → Prop} [DecidableRel below]

/-- Of two values one is kept, and it stands before both. -/
theorem below_keep
    (htotal : ∀ {x y : Float}, x.isFinite = true → y.isFinite = true → below x y ∨ below y x)
    {x y kept : Float} (hx : x.isFinite = true) (hy : y.isFinite = true)
    (hkept : (if below x y then x else y) = kept) :
    (kept = x ∨ kept = y) ∧ below kept x ∧ below kept y := by
  subst hkept
  by_cases h : below x y
  · rw [if_pos h]
    exact ⟨.inl rfl, or_self_iff.mp (htotal hx hx), h⟩
  · rw [if_neg h]
    exact ⟨.inr rfl, (htotal hx hy).resolve_left h, or_self_iff.mp (htotal hy hy)⟩

/-- The value that stands before all others, where values that stand before are kept. -/
theorem foldl_keep
    (htotal : ∀ {x y : Float}, x.isFinite = true → y.isFinite = true → below x y ∨ below y x)
    (htrans : ∀ {x y z : Float}, x.isFinite = true → y.isFinite = true → z.isFinite = true →
      below x y → below y z → below x z)
    {first : Float} {rest : List Float} (h : ∀ v ∈ first :: rest, v.isFinite = true) :
    rest.foldl (fun a b => if below a b then a else b) first ∈ first :: rest ∧
      ∀ v ∈ first :: rest, below (rest.foldl (fun a b => if below a b then a else b) first) v := by
  induction rest generalizing first with
  | nil =>
    have hfirst := h first List.mem_cons_self
    have hself := or_self_iff.mp (htotal hfirst hfirst)
    exact ⟨List.mem_cons_self, List.forall_mem_singleton.mpr hself⟩
  | cons next rest ih =>
    rw [List.forall_mem_cons, List.forall_mem_cons] at h
    obtain ⟨hfirst, hnext, hrest⟩ := h
    rw [List.foldl_cons]
    generalize hkept : (if below first next then first else next) = kept
    obtain ⟨hone, hbelowFirst, hbelowNext⟩ := below_keep htotal hfirst hnext hkept
    have hfinite : kept.isFinite = true := by
      rcases hone with rfl | rfl <;> assumption
    obtain ⟨hin, hleast⟩ := ih (List.forall_mem_cons.mpr ⟨hfinite, hrest⟩)
    generalize rest.foldl (fun a b => if below a b then a else b) kept = x at hin hleast ⊢
    obtain ⟨hleastKept, hleastRest⟩ := List.forall_mem_cons.mp hleast
    have hxfinite : x.isFinite = true := by
      rcases List.mem_cons.mp hin with rfl | hx
      · exact hfinite
      · exact hrest x hx
    have hleastFirst := htrans hxfinite hfinite hfirst hleastKept hbelowFirst
    have hleastNext := htrans hxfinite hfinite hnext hleastKept hbelowNext
    refine ⟨?_, List.forall_mem_cons.mpr
      ⟨hleastFirst, List.forall_mem_cons.mpr ⟨hleastNext, hleastRest⟩⟩⟩
    rcases List.mem_cons.mp hin with rfl | hx
    · rcases hone with rfl | rfl
      · exact List.mem_cons_self
      · exact List.mem_cons_of_mem _ List.mem_cons_self
    · exact List.mem_cons_of_mem _ (List.mem_cons_of_mem _ hx)

/-- What a reduction of values is: the least or the greatest of them, their sum over their number,
or the first one. -/
def Reduces : Aggregate → List Float → Float → Prop
  | min, values, x => x ∈ values ∧ ∀ v ∈ values, x ≤ v
  | max, values, x => x ∈ values ∧ ∀ v ∈ values, v ≤ x
  | avg, values, x => x = values.foldl (· + ·) (-0) / Float.ofNat values.length
  | value, values, x => values.head? = some x

theorem reduces_of_reduce? {kind : Aggregate} {values : List Float} {x : Float}
    (hfinite : ∀ v ∈ values, v.isFinite = true) (h : kind.reduce? values = some x) :
    kind.Reduces values x := by
  cases values with
  | nil => cases h
  | cons first rest =>
    obtain rfl := Option.some.inj h
    cases kind with
    | min => exact foldl_keep Decimal.le_or_ge Decimal.le_of_le_of_le hfinite
    | max =>
      exact foldl_keep (fun hx hy => Decimal.le_or_ge hy hx)
        (fun hx hy hz hxy hyz => Decimal.le_of_le_of_le hz hy hx hyz hxy) hfinite
    | avg => rw [Reduces, List.foldl_cons, Decimal.negZero_add, List.length_cons]
    | value => rfl

end Aggregate

end Almanac
