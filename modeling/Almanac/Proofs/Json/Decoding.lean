import Almanac.Json.Decoding
import Almanac.Proofs.Json.RoundTrip

/-!
What the encoders write is decoded as it was, and fits on the way through its text: members of
lists one by one, and fields that are left out when they have no value.
-/

namespace Almanac.Json

section

variable {α : Type} {encode : α → Json} {items : List α}

theorem toList?_map {decode : Json → Option α}
    (h : ∀ item ∈ items, decode (encode item) = some item) :
    toList? decode (.list (items.map encode)) = some items := mapM_map_eq_some h

theorem Fits.list_map {depth : Nat} (h : ∀ item ∈ items, Fits depth (encode item)) :
    Fits (depth + 1) (.list (items.map encode)) := by
  refine .list fun value hvalue => ?_
  obtain ⟨item, hitem, rfl⟩ := List.mem_map.mp hvalue
  exact h item hitem

theorem fits_ofTexts {depth : Nat} (texts : List String) : Fits (depth + 1) (ofTexts texts) :=
  .list_map fun text _ => .text text

theorem toTexts?_ofTexts (texts : List String) :
    toList? toText? (ofTexts texts) = some texts := toList?_map fun _ _ => rfl

theorem fits_of_mem_fieldIfSome {depth : Nat} {key : String} {value : Option α}
    (h : ∀ item ∈ value, Fits depth (encode item)) :
    ∀ field ∈ fieldIfSome key encode value, Fits depth field.2 := by
  cases value with
  | none => simp [fieldIfSome]
  | some item => simpa [fieldIfSome] using h item rfl

end

/-! Values in which nothing is unreadable -/

theorem areReadable_iff {items : List Json} :
    areReadable items = true ↔ ∀ item ∈ items, item.isReadable = true := by
  induction items with
  | nil => simp [areReadable]
  | cons item rest ih => rw [areReadable, Bool.and_eq_true, ih, List.forall_mem_cons]

theorem areFieldsReadable_iff {fields : List (String × Json)} :
    areFieldsReadable fields = true ↔ ∀ field ∈ fields, field.2.isReadable = true := by
  induction fields with
  | nil => simp [areFieldsReadable]
  | cons field rest ih => rw [areFieldsReadable, Bool.and_eq_true, ih, List.forall_mem_cons]

theorem Fits.isReadable {depth : Nat} {value : Json} (h : Fits depth value) :
    value.isReadable = true := by
  induction h with
  | null | bool | int | real | text => rfl
  | list _ ih => rw [Json.isReadable, areReadable_iff.mpr ih]
  | record _ ih => rw [Json.isReadable, areFieldsReadable_iff.mpr ih]

/-! Levels of nesting -/

theorem depth_le_depthItems {item : Json} {items : List Json} (h : item ∈ items) :
    item.depth ≤ depthItems items := by
  induction items with
  | nil => cases h
  | cons first rest ih =>
    rw [depthItems]
    rcases List.mem_cons.mp h with rfl | hmem
    · split <;> omega
    · have hle := ih hmem
      split <;> omega

theorem depth_le_depthFields {field : String × Json} {fields : List (String × Json)}
    (h : field ∈ fields) : field.2.depth ≤ depthFields fields := by
  induction fields with
  | nil => cases h
  | cons first rest ih =>
    rw [depthFields]
    rcases List.mem_cons.mp h with rfl | hmem
    · split <;> omega
    · have hle := ih hmem
      split <;> omega

/-! Numbers -/

theorem toNat?_ofNat (n : Nat) : (ofNat n).toNat? = some n := by simp [ofNat, toNat?]

theorem fits_ofNat {depth n : Nat} (h : n < wordLimit) : Fits depth (ofNat n) :=
  .int (by omega) (by omega)

theorem ofFloat_of_readsBack {x : Float} (h : ReadsBack x) : ofFloat x = .real x :=
  if_pos (isFinite_of_readsBack h)

end Almanac.Json
