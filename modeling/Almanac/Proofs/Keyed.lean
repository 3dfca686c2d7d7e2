import Almanac.Keyed
import Mathlib.Data.List.Induction

/-!
Entries are kept in the order of their keys, whatever the order is in which they come, and of one
key the last value is kept. Entries whose keys are in order already are kept as they stand, and
each has a key of its own.
-/

namespace Almanac.Keyed

variable {α : Type}

/-! The order of the keys -/

theorem precedes_cons_iff {a b : Char} {as bs : List Char} :
    precedes (a :: as) (b :: bs) = true ↔
      a.toNat < b.toNat ∨ a.toNat = b.toNat ∧ precedes as bs = true := by
  rw [precedes]
  by_cases hab : a.toNat < b.toNat
  · simp [hab]
  · by_cases hba : b.toNat < a.toNat
    · simp [hab, hba, Nat.ne_of_gt hba]
    · simp [Nat.le_antisymm (Nat.not_lt.mp hba) (Nat.not_lt.mp hab)]

theorem precedes_asymm {as bs : List Char} (h : precedes as bs = true) :
    precedes bs as = false := by
  induction as generalizing bs with
  | nil =>
    cases bs with
    | nil => cases h
    | cons b bs => rfl
  | cons a as ih =>
    cases bs with
    | nil => cases h
    | cons b bs =>
      rw [← Bool.not_eq_true, precedes_cons_iff]
      rcases precedes_cons_iff.mp h with hlt | ⟨heq, hrest⟩
      · omega
      · simp [heq, ih hrest]

theorem precedes_trans {as bs cs : List Char} (hab : precedes as bs = true)
    (hbc : precedes bs cs = true) : precedes as cs = true := by
  induction as generalizing bs cs with
  | nil =>
    cases cs with
    | nil => cases bs <;> cases hbc
    | cons c cs => rfl
  | cons a as ih =>
    cases bs with
    | nil => cases hab
    | cons b bs =>
      cases cs with
      | nil => cases hbc
      | cons c cs =>
        rw [precedes_cons_iff] at hab hbc ⊢
        rcases hab with hab | ⟨hab, has⟩ <;> rcases hbc with hbc | ⟨hbc, hbs⟩
        · exact .inl (Nat.lt_trans hab hbc)
        · exact .inl (hbc ▸ hab)
        · exact .inl (hab ▸ hbc)
        · exact .inr ⟨hab.trans hbc, ih has hbs⟩

/-- Of two different keys one precedes the other. -/
theorem precedes_of_not {as bs : List Char} (h : ¬precedes as bs = true) (hne : as ≠ bs) :
    precedes bs as = true := by
  induction as generalizing bs with
  | nil =>
    cases bs with
    | nil => exact absurd rfl hne
    | cons b bs => exact absurd rfl h
  | cons a as ih =>
    cases bs with
    | nil => rfl
    | cons b bs =>
      rw [precedes_cons_iff] at h ⊢
      by_cases heq : a = b
      · subst heq
        refine .inr ⟨rfl, ih (fun has => h (.inr ⟨rfl, has⟩)) ?_⟩
        rintro rfl
        exact hne rfl
      · have hchars : a.toNat ≠ b.toNat := fun hchars => heq (Char.toNat_inj.mp hchars)
        omega

def Ordered (keys : List String) : Prop :=
  keys.Pairwise fun a b => precedes a.toList b.toList = true

instance (keys : List String) : Decidable (Ordered keys) :=
  inferInstanceAs (Decidable (List.Pairwise _ keys))

/-! Putting entries in order -/

theorem mem_keys_insert {key k : String} {value : α} {kept : List (String × α)}
    (h : k ∈ (insert key value kept).map Prod.fst) : k = key ∨ k ∈ kept.map Prod.fst := by
  induction kept with
  | nil => simpa [insert] using h
  | cons entry rest ih =>
    rw [insert] at h
    split at h
    · exact (List.mem_cons.mp h).imp id (List.mem_cons_of_mem _)
    · split at h
      · exact List.mem_cons.mp h
      · rcases List.mem_cons.mp h with rfl | hrest
        · exact .inr List.mem_cons_self
        · exact (ih hrest).imp id (List.mem_cons_of_mem _)

theorem ordered_insert {kept : List (String × α)} (h : Ordered (kept.map Prod.fst)) (key : String)
    (value : α) : Ordered ((insert key value kept).map Prod.fst) := by
  induction kept with
  | nil => exact List.pairwise_singleton _ _
  | cons entry rest ih =>
    obtain ⟨hentry, hrest⟩ := List.pairwise_cons.mp h
    rw [insert]
    split
    · rename_i heq
      rw [heq]
      exact h
    · rename_i hne
      split
      · rename_i hbefore
        refine List.pairwise_cons.mpr ⟨List.forall_mem_cons.mpr ⟨hbefore, fun k hk => ?_⟩, h⟩
        exact precedes_trans hbefore (hentry k hk)
      · rename_i hafter
        refine List.pairwise_cons.mpr ⟨fun k hk => ?_, ih hrest⟩
        rcases mem_keys_insert hk with rfl | hk
        · exact precedes_of_not hafter (mt String.toList_inj.mp hne)
        · exact hentry k hk

theorem ofList_append_singleton (entries : List (String × α)) (entry : String × α) :
    ofList (entries ++ [entry]) = insert entry.1 entry.2 (ofList entries) := by
  rw [ofList, List.foldl_append]
  rfl

theorem ordered_ofList (entries : List (String × α)) :
    Ordered ((ofList entries).map Prod.fst) := by
  induction entries using List.reverseRecOn with
  | nil => exact .nil
  | append_singleton entries entry ih =>
    rw [ofList_append_singleton]
    exact ordered_insert ih entry.1 entry.2

theorem mem_keys_ofList {k : String} {entries : List (String × α)}
    (h : k ∈ (ofList entries).map Prod.fst) : k ∈ entries.map Prod.fst := by
  induction entries using List.reverseRecOn with
  | nil => exact h
  | append_singleton entries entry ih =>
    rw [ofList_append_singleton] at h
    rw [List.map_append]
    rcases mem_keys_insert h with rfl | hk
    · exact List.mem_append_right _ List.mem_cons_self
    · exact List.mem_append_left _ (ih hk)

/-- With keys of their own, all entries are found. -/
theorem find?_ofList_of_mem {key : String} {value : α} {entries : List (String × α)}
    (hdistinct : (entries.map Prod.fst).Nodup) (h : (key, value) ∈ entries) :
    find? key (ofList entries) = some value := by
  induction entries using List.reverseRecOn with
  | nil => cases h
  | append_singleton entries entry ih =>
    rw [List.map_append, List.nodup_append] at hdistinct
    obtain ⟨hentries, -, hother⟩ := hdistinct
    rw [ofList_append_singleton, find?_insert]
    rcases List.mem_append.mp h with hmem | hlast
    · have hne : entry.1 ≠ key := (hother key (List.mem_map_of_mem hmem) entry.1 (by simp)).symm
      rw [if_neg hne, ih hentries hmem]
    · rw [List.mem_singleton] at hlast
      rw [← hlast, if_pos rfl]

/-- A key that all others precede goes to the end. -/
theorem insert_of_precedes {key : String} {value : α} {kept : List (String × α)}
    (h : ∀ entry ∈ kept, precedes entry.1.toList key.toList = true) :
    insert key value kept = kept ++ [(key, value)] := by
  induction kept with
  | nil => rfl
  | cons entry kept ih =>
    obtain ⟨hentry, hkept⟩ := List.forall_mem_cons.mp h
    have hafter : precedes key.toList entry.1.toList = false := precedes_asymm hentry
    have hne : key ≠ entry.1 := by
      rintro rfl
      rw [hafter] at hentry
      cases hentry
    rw [insert, if_neg hne, if_neg (by simp [hafter]), ih hkept, List.cons_append]

theorem ofList_of_ordered {entries : List (String × α)} (h : Ordered (entries.map Prod.fst)) :
    ofList entries = entries := by
  have hfold : ∀ kept : List (String × α), Ordered ((kept ++ entries).map Prod.fst) →
      entries.foldl (fun kept entry => insert entry.1 entry.2 kept) kept = kept ++ entries := by
    clear h
    induction entries with
    | nil =>
      intro kept _
      rw [List.foldl_nil, List.append_nil]
    | cons entry rest ih =>
      intro kept hkept
      have hprecedes : ∀ other ∈ kept, precedes other.1.toList entry.1.toList = true := by
        intro other hother
        rw [Ordered, List.map_append, List.pairwise_append] at hkept
        exact hkept.2.2 other.1 (List.mem_map_of_mem hother) entry.1 (by simp)
      rw [List.foldl_cons, insert_of_precedes hprecedes, ih _ (by simpa using hkept),
        List.append_assoc, List.singleton_append]
  exact hfold [] h

theorem not_mem_of_ordered {key : String} {value : α} {rest : List (String × α)}
    (h : Ordered (((key, value) :: rest).map Prod.fst)) : key ∉ rest.map Prod.fst := by
  intro hmem
  have hself := List.rel_of_pairwise_cons h hmem
  rw [precedes_asymm hself] at hself
  cases hself

/-- In ordered entries the last one of a key is the only one. -/
theorem getLast?_filter_of_ordered {entries : List (String × α)}
    (h : Ordered (entries.map Prod.fst)) (key : String) :
    (entries.filter fun entry => entry.1 = key).getLast?.map Prod.snd = find? key entries := by
  induction entries with
  | nil => rfl
  | cons entry rest ih =>
    obtain ⟨other, value⟩ := entry
    by_cases hkey : other = key
    · subst hkey
      have hnone : rest.filter (fun entry => entry.1 = other) = [] := by
        rw [List.filter_eq_nil_iff]
        intro entry hentry
        have hne : entry.1 ≠ other := by
          rintro rfl
          exact not_mem_of_ordered h (List.mem_map_of_mem hentry)
        simpa using hne
      rw [List.filter_cons_of_pos (by simp), hnone, find?, if_pos rfl]
      rfl
    · rw [List.filter_cons_of_neg (by simpa using hkey), ih h.tail, find?, if_neg hkey]

end Almanac.Keyed
