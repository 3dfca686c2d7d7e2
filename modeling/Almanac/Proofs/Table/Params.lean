import Almanac.Proofs.Table.Resolution
import Mathlib.Data.List.Induction
import Mathlib.Data.List.TakeWhile

/-!
The parameters of a sound command: first the ones that take a token each, then at most two
sub-queries.
-/

namespace Almanac.Command

variable {c : Command}

theorem check_eq_ok_iff :
    c.check = .ok () ↔ (∀ p ∈ c.params, p.kind = .enum → p.value ≠ none) ∧ c.misplaced? = none ∧
      c.subQuerySlots ≤ 2 := by
  rw [check]
  split
  · rename_i p hp
    have hmem := List.mem_of_find?_eq_some hp
    have hbad := List.find?_some hp
    simp only [Bool.and_eq_true, decide_eq_true_eq, Option.isNone_iff_eq_none] at hbad
    simp only [reduceCtorEq, false_iff, not_and]
    intro hvalues
    exact absurd hbad.2 (hvalues p hmem hbad.1)
  · rename_i hnone
    have hvalues : ∀ p ∈ c.params, p.kind = .enum → p.value ≠ none := by
      simpa [List.find?_eq_none] using hnone
    cases hmisplaced : c.misplaced? with
    | some p => simp
    | none => simpa [Nat.not_lt] using fun _ => hvalues

theorem discriminant_eq_some_iff {word : String} :
    c.discriminant = some word ↔
      ∃ p rest, c.params = p :: rest ∧ p.kind = .enum ∧ p.value = some word := by
  unfold discriminant
  cases c.params with
  | nil => simp
  | cons p rest => by_cases hkind : p.kind = .enum <;> simp [hkind]

theorem length_params (c : Command) :
    c.params.length = c.positional.length + c.subQuerySlots := by
  have hslots :
      c.subQuerySlots = (c.params.filter fun p => !decide (p.kind ≠ .subQuery)).length := by
    simp [subQuerySlots, subQueryParams]
  rw [hslots]
  exact List.length_eq_length_filter_add fun p : Param => decide (p.kind ≠ .subQuery)

theorem subQueryParams_ne_nil (htwo : c.subQuerySlots = 2) : c.subQueryParams ≠ [] := by
  intro hnil
  rw [subQuerySlots, hnil] at htwo
  cases htwo

/-- In a sound command the sub-queries come last. -/
theorem params_eq_append (h : c.check = .ok ()) : c.params = c.positional ++ c.subQueryParams := by
  have hlast : ∀ p ∈ c.params.dropWhile fun p => p.kind ≠ .subQuery, p.kind = .subQuery := by
    simpa [misplaced?, List.find?_eq_none] using (check_eq_ok_iff.mp h).2.1
  have hfirst : ∀ p ∈ c.params.takeWhile fun p => p.kind ≠ .subQuery, p.kind ≠ .subQuery := by
    intro p hp
    simpa using List.mem_takeWhile_imp hp
  have hsplit := List.takeWhile_append_dropWhile (p := fun p : Param => p.kind ≠ .subQuery)
    (l := c.params)
  have hpositional : c.positional = c.params.takeWhile fun p => p.kind ≠ .subQuery := by
    rw [positional]
    conv_lhs => rw [← hsplit]
    rw [List.filter_append, List.filter_eq_self.mpr (by simpa using hfirst),
      List.filter_eq_nil_iff.mpr (by simpa using hlast), List.append_nil]
  have hslots : c.subQueryParams = c.params.dropWhile fun p => p.kind ≠ .subQuery := by
    rw [subQueryParams]
    conv_lhs => rw [← hsplit]
    rw [List.filter_append, List.filter_eq_nil_iff.mpr (by simpa using hfirst),
      List.filter_eq_self.mpr (by simpa using hlast), List.nil_append]
  rw [hpositional, hslots, hsplit]

/-- From the first sub-query on, all parameters are sub-queries. -/
theorem kind_of_positional_le (h : c.check = .ok ()) {i : Nat} (hi : c.positional.length ≤ i)
    {p : Param} (hp : c.params[i]? = some p) : p.kind = .subQuery := by
  rw [params_eq_append h, List.getElem?_append_right hi] at hp
  simpa [subQueryParams] using (List.mem_filter.mp (List.mem_of_getElem? hp)).2

theorem kind_ne_of_own (h : c.check = .ok ()) {i : Nat}
    (hown : i < c.positional.length ∨ c.subQueryParams = []) {p : Param}
    (hp : c.params[i]? = some p) : p.kind ≠ .subQuery := by
  have hmem : p ∈ c.positional := by
    rw [params_eq_append h] at hp
    rcases hown with hlt | hnil
    · rw [List.getElem?_append_left hlt] at hp
      exact List.mem_of_getElem? hp
    · rw [hnil, List.append_nil] at hp
      exact List.mem_of_getElem? hp
  simpa [positional] using (List.mem_filter.mp hmem).2

theorem firstSubQuery?_eq (h : c.check = .ok ()) (hslots : c.subQueryParams ≠ []) :
    c.firstSubQuery? = some c.positional.length := by
  obtain ⟨slot, more, hsubs⟩ := List.exists_cons_of_ne_nil hslots
  have hslot : slot.kind = .subQuery := by
    have hmem : slot ∈ c.subQueryParams := hsubs ▸ List.mem_cons_self
    simpa [subQueryParams] using (List.mem_filter.mp hmem).2
  have hnone : c.positional.findIdx? (fun p => decide (p.kind = .subQuery)) = none := by
    simp [positional, List.findIdx?_eq_none_iff]
  rw [firstSubQuery?, params_eq_append h, hsubs, List.findIdx?_append, hnone,
    List.findIdx?_cons]
  simp [hslot]

theorem hasSubQueryTail_eq (h : c.check = .ok ()) :
    c.hasSubQueryTail = !c.subQueryParams.isEmpty := by
  rw [hasSubQueryTail, params_eq_append h]
  cases hsubs : c.subQueryParams using List.reverseRecOn with
  | nil =>
    cases hlast : c.positional.getLast? with
    | none => simp [hlast]
    | some p =>
      have hp : p.kind ≠ .subQuery := by
        simpa [positional] using (List.mem_filter.mp (List.mem_of_getLast? hlast)).2
      simp [hlast, hp]
  | append_singleton more slot =>
    have hslot : slot.kind = .subQuery := by
      have hmem : slot ∈ c.subQueryParams := hsubs ▸ List.mem_append_right more List.mem_cons_self
      simpa [subQueryParams] using (List.mem_filter.mp hmem).2
    rw [← List.append_assoc, List.getLast?_concat]
    simp [hslot]

end Almanac.Command
