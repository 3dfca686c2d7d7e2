import Almanac.Proofs.Completion.Arrows

/-!
The candidates that are listed for a line, and the hint behind it. The list pairs each candidate
of the innermost panel with the line that choosing it leads to, and the hint is what the first of
these lines adds. Both leave out what cannot be chosen and what does not continue the line, and in
a sound table there is nothing to leave out.
-/

namespace Almanac

theorem Panel.map_text_markAt (index : Nat) (candidates : List Candidate) :
    (markAt index candidates).map Candidate.text = candidates.map Candidate.text := by
  refine List.ext_getElem? fun i => ?_
  simp [getElem?_markAt, Function.comp_def]

namespace Completion

variable {line : List Char} {c : Completion} {insertion : String}

/-- An insertion adds to the line, and it ends what it adds with a blank. -/
theorem Continues.exists_added (h : Continues line c) (hmem : insertion ∈ c.insertions) :
    ∃ added, Suggestion.completedLine line c insertion = line ++ added ∧
      added.getLast? = some ' ' := by
  obtain ⟨front, typed, hline, ⟨rest, hrest⟩, hcompleted⟩ := h.exists_completedLine hmem
  refine ⟨rest ++ [' '], ?_, by simp⟩
  rw [hcompleted, hline, ← hrest]
  simp only [List.append_assoc]

end Completion

namespace Suggestion

open Completion

variable {offer : Offer} {nested : Bool} {line : List Char} {index : Nat}

theorem completed_select (cursor index : Nat) :
    (after offer nested cursor line (.select index)).completed =
      (ofLine offer nested line).insertions[index]?.map
        (completedLine line (ofLine offer nested line)) := by
  simp only [after, insert]
  cases (ofLine offer nested line).insertions[index]? <;> rfl

def listed (line : List Char) (c : Completion) : List (String × List Char) :=
  List.zipWith (fun candidate insertion => (candidate.text, completedLine line c insertion))
    c.panel.innermost.candidates c.insertions

/-- Every candidate has its insertion, so none is left out. -/
theorem choices_eq_listed : choices offer line = listed line (ofLine offer false line) := by
  have hparallel := (paired_ofLine offer false line).parallel
  have hpairs : ((Panel.markAt 0 (ofLine offer false line).panel.innermost.candidates).mapIdx
      fun index candidate => (after offer false 0 line (.select index)).completed.map
        fun completed => (candidate.text, completed)) =
      (listed line (ofLine offer false line)).map some := by
    refine List.ext_getElem (by simp [listed, hparallel]) fun i hi _ => ?_
    rw [List.length_mapIdx, Panel.length_markAt, ← hparallel] at hi
    simp [listed, completed_select, Panel.markAt, hi]
  have hpanel : (after offer false 0 line (.key .other)).panel? =
      some ((ofLine offer false line).panel.select 0) := rfl
  simp only [choices, hpanel, Panel.candidates_select, hpairs, List.filterMap_map]
  exact List.filterMap_some

theorem map_fst_choices :
    (choices offer line).map Prod.fst =
      (ofLine offer false line).panel.innermost.candidates.map Candidate.text := by
  have hparallel := (paired_ofLine offer false line).parallel
  rw [choices_eq_listed]
  refine List.ext_getElem (by simp [listed, hparallel]) fun i _ _ => ?_
  simp [listed]

/-- The line listed at an index is the one that choosing there leads to. -/
theorem exists_added_of_choices (hsound : offer.table.check = .ok ()) {pair : String × List Char}
    (h : (choices offer line)[index]? = some pair) :
    (after offer false 0 line (.select index)).completed = some pair.2 ∧
      ∃ added, pair.2 = line ++ added ∧ added.getLast? = some ' ' := by
  rw [choices_eq_listed, listed, List.getElem?_zipWith_eq_some] at h
  obtain ⟨candidate, insertion, _, hinsertion, rfl⟩ := h
  rw [completed_select, hinsertion]
  exact ⟨rfl, (continues_ofLine_of_check hsound false line).exists_added
    (List.mem_of_getElem? hinsertion)⟩

/-- What the first listed line adds is the hint, unless it is blank. -/
theorem hint?_of_choices (hsound : offer.table.check = .ok ()) {pair : String × List Char}
    {more : List (String × List Char)} (h : choices offer line = pair :: more) :
    ∃ added, pair.2 = line ++ added ∧
      hint? offer line = if (Text.trim added).isEmpty then none else some added := by
  obtain ⟨hcompleted, added, hadded, _⟩ :=
    @exists_added_of_choices offer line 0 hsound pair (by rw [h]; rfl)
  refine ⟨added, hadded, ?_⟩
  rw [hint?, hcompleted, hadded, Option.bind_some,
    if_pos (List.isPrefixOf_iff_prefix.mpr (List.prefix_append line added)), List.drop_left]

theorem hint?_of_no_choices (h : choices offer line = []) : hint? offer line = none := by
  have hnone : (ofLine offer false line).insertions = [] := by
    have hlength := congrArg List.length (@map_fst_choices offer line)
    rw [h, List.length_map, List.length_map, ← (paired_ofLine offer false line).parallel] at hlength
    exact List.eq_nil_of_length_eq_zero hlength.symm
  rw [hint?, completed_select, hnone]
  rfl

/-- Every candidate that can be chosen is listed, in order, with the line that choosing it leads
to. That line continues the given one and ends with a blank. The hint is what the first listed
line adds, and there is none only if nothing is listed or what it adds is blank. -/
theorem hint_agrees_with_choices {offer : Offer} (hsound : offer.table.check = .ok ())
    (line : List Char) :
    (∃ panel, (after offer false 0 line (.key .other)).panel? = some panel ∧
        (choices offer line).map Prod.fst = panel.innermost.candidates.map Candidate.text) ∧
      (∀ index pair, (choices offer line)[index]? = some pair →
        (after offer false 0 line (.select index)).completed = some pair.2 ∧
          line <+: pair.2 ∧ pair.2.getLast? = some ' ') ∧
      (∀ rest, hint? offer line = some rest ↔
        ∃ pair more, choices offer line = pair :: more ∧ pair.2 = line ++ rest ∧
          Text.trim rest ≠ []) ∧
      (hint? offer line = none ↔
        choices offer line = [] ∨
          ∃ pair more rest, choices offer line = pair :: more ∧ pair.2 = line ++ rest ∧
            Text.trim rest = []) := by
  refine ⟨⟨(ofLine offer false line).panel.select 0, rfl, ?_⟩, ?_, ?_⟩
  · rw [map_fst_choices, Panel.candidates_select, Panel.map_text_markAt]
  · intro index pair hpair
    obtain ⟨hcompleted, added, hadded, hblank⟩ := exists_added_of_choices hsound hpair
    refine ⟨hcompleted, hadded ▸ List.prefix_append line added, ?_⟩
    rw [hadded, List.getLast?_append, hblank]
    rfl
  · cases hchoices : choices offer line with
    | nil => simp [hint?_of_no_choices hchoices]
    | cons pair more =>
      obtain ⟨added, hadded, hhint⟩ := hint?_of_choices hsound hchoices
      obtain ⟨text, completed⟩ := pair
      obtain rfl : completed = line ++ added := hadded
      by_cases hblank : Text.trim added = []
      · simp [hhint, hblank]
      · simp [hhint, hblank]

theorem hint_agrees_with_choices_zip :
    let offer := Offer.ofDataset .builtin .empty
    choices offer "compare z".toList = [("zip", "compare zip ".toList)] ∧
      hint? offer "compare z".toList = some "ip ".toList := by
  intro offer
  have hstep : step offer false "compare z".toList =
      .done (ofVariants ⟨"compare", 0⟩ (offer.table.visibleOverloads "compare" false)
        (titled "compare" false) "z" 8 9) :=
    rfl
  have hchoices : choices offer "compare z".toList = [("zip", "compare zip ".toList)] := by
    rw [choices_eq_listed, ofLine_done hstep]
    decide
  refine ⟨hchoices, ?_⟩
  rw [(@hint_agrees_with_choices offer CommandTable.builtin_sound _).2.2.1]
  exact ⟨_, [], hchoices, rfl, by decide⟩

end Suggestion

end Almanac
