import Almanac.Proofs.Completion.Insertion
import Mathlib.Logic.Function.Iterate

/-!
The arrows. The candidates that can be chosen are those of the innermost panel, one for each
insertion, and the cursor is the index of one of them. The arrows walk the list around, and they
bring back a cursor that an earlier list has left behind.
-/

namespace Almanac

namespace Panel

/-- The candidate at an index of the innermost panel is there, and no other candidate of any panel
is marked. -/
structure MarksOnly (panel : Panel) (index : Nat) : Prop where
  live : index < panel.innermost.candidates.length
  marked : ∀ i c, panel.innermost.candidates[i]? = some c → (c.selected = true ↔ i = index)
  outer : ∀ p ∈ panel.outer, ∀ c ∈ p.candidates, c.selected = false

theorem candidates_select (index : Nat) (panel : Panel) :
    (panel.select index).innermost.candidates = markAt index panel.innermost.candidates := by
  rw [innermost_select]

theorem outer_select (index : Nat) : ∀ panel : Panel,
    (panel.select index).outer.map candidates = panel.outer.map candidates
  | ⟨_, _, _, _, _, _, none⟩ => rfl
  | ⟨_, _, _, _, _, _, some inner⟩ => by
    rw [select, outer, outer, List.map_cons, List.map_cons, outer_select index inner]

theorem getElem?_markAt (index i : Nat) (candidates : List Candidate) :
    (markAt index candidates)[i]? =
      candidates[i]?.map fun c => { c with selected := i = index } := by
  rw [markAt, List.getElem?_mapIdx]

@[simp] theorem length_markAt (index : Nat) (candidates : List Candidate) :
    (markAt index candidates).length = candidates.length :=
  List.length_mapIdx

/-- A panel whose outer panels have no candidates gets its only mark at an index of the list. -/
theorem marksOnly_select_iff {panel : Panel} (houter : ∀ p ∈ panel.outer, p.candidates = [])
    (index : Nat) :
    (panel.select index).MarksOnly index ↔ index < panel.innermost.candidates.length := by
  constructor
  · intro h
    simpa [candidates_select] using h.live
  · intro hlive
    refine ⟨by simpa [candidates_select] using hlive, ?_, ?_⟩
    · intro i c hc
      rw [candidates_select, getElem?_markAt] at hc
      obtain ⟨d, _, rfl⟩ := Option.map_eq_some_iff.mp hc
      simp
    · intro p hp c hc
      have hmem : p.candidates ∈ panel.outer.map candidates := by
        rw [← outer_select index]
        exact List.mem_map_of_mem hp
      obtain ⟨q, hq, hsame⟩ := List.mem_map.mp hmem
      rw [← hsame, houter q hq] at hc
      cases hc

/-- Without a candidate at the index nothing is marked. -/
theorem selected?_select_of_le {panel : Panel} {index : Nat}
    (h : panel.innermost.candidates.length ≤ index) : (panel.select index).selected? = none := by
  rw [selected?, candidates_select, List.find?_eq_none]
  intro c hc
  obtain ⟨i, hi⟩ := List.getElem?_of_mem hc
  rw [getElem?_markAt] at hi
  obtain ⟨d, hd, rfl⟩ := Option.map_eq_some_iff.mp hi
  have hlt := (List.getElem?_eq_some_iff.mp hd).1
  simp only [decide_eq_true_eq]
  omega

end Panel

namespace Completion

variable {offer : Offer} {nested : Bool} {line : List Char}

theorem paired_step {completion : Completion} (h : step offer nested line = .done completion) :
    completion.Paired := by
  cases atOnce_of_step h with
  | blank hscan => exact paired_of_flat rfl (by simp [ofCommands])
  | word hscan hopen => exact paired_of_flat rfl (by simp [ofCommands])
  | overload hbegun hmany htyping =>
    rw [ofVariants]
    split
    · exact paired_of_flat rfl rfl
    · exact paired_of_flat rfl (by simp)
  | refused hbegun huntyped hnot hexplains =>
    exact paired_of_flat hexplains.nested (by simp [closed, hexplains.candidates])
  | row hat hp hkind => exact paired_of_flat rfl (by simp [ofValues])
  | date hat hp hkind => exact paired_of_flat rfl (by simp [ofValues])
  | told hat message hother => exact paired_of_flat rfl rfl

/-- In every completion, from any table, only the innermost panel has candidates. -/
theorem paired_ofLine (offer : Offer) (nested : Bool) (line : List Char) :
    (ofLine offer nested line).Paired := by
  refine ofLine_induct (motive := fun _ _ c => c.Paired) ?_ ?_ nested line
  · intro _ _ completion h
    exact paired_step h
  · intro _ _ panel start h hsub
    exact hsub.around (candidates_of_nest h) _

end Completion

namespace Suggestion

open Completion

variable {offer : Offer} {nested : Bool} {line : List Char} {cursor index count : Nat}

def liveCount (offer : Offer) (nested : Bool) (line : List Char) : Nat :=
  (ofLine offer nested line).panel.innermost.candidates.length

theorem length_insertions (offer : Offer) (nested : Bool) (line : List Char) :
    (ofLine offer nested line).insertions.length = liveCount offer nested line :=
  (paired_ofLine offer nested line).parallel

/-- What is shown of a line marks the candidate at the cursor exactly if there is one. -/
theorem marksOnly_shown_iff :
    ((ofLine offer nested line).panel.select index).MarksOnly index ↔
      index < liveCount offer nested line :=
  Panel.marksOnly_select_iff (paired_ofLine offer nested line).outer index

/-! The arrows -/

theorem next_of_lt (h : index < count) : next count index = (index + 1) % count := by
  rw [next]
  split
  · rw [show index + 1 = count by omega, Nat.mod_self]
  · rw [Nat.mod_eq_of_lt (by omega)]

theorem next_of_le (h : count ≤ index) : next count index = 0 := by
  rw [next, if_pos (by omega)]

theorem previous_of_lt (h : index < count) :
    previous count index = (index + (count - 1)) % count := by
  rw [previous]
  split
  · rename_i hcond
    simp only [Bool.and_eq_true, decide_eq_true_eq] at hcond
    rw [show index + (count - 1) = index - 1 + count by omega, Nat.add_mod_right,
      Nat.mod_eq_of_lt hcond.2]
  · rename_i hcond
    simp only [Bool.and_eq_true, decide_eq_true_eq] at hcond
    rw [show index = 0 by omega, Nat.zero_add, Nat.mod_eq_of_lt (by omega)]

theorem previous_of_le (h : count ≤ index) : previous count index = count - 1 := by
  rw [previous]
  split
  · rename_i hcond
    simp only [Bool.and_eq_true, decide_eq_true_eq] at hcond
    omega
  · rfl

theorem next_lt (h : 0 < count) (index : Nat) : next count index < count := by
  rw [next]
  split <;> omega

theorem previous_lt (h : 0 < count) (index : Nat) : previous count index < count := by
  rcases Nat.lt_or_ge index count with hlt | hle
  · rw [previous_of_lt hlt]
    exact Nat.mod_lt _ h
  · rw [previous_of_le hle]
    omega

theorem next_eq_zero_or_lt (count index : Nat) :
    next count index = 0 ∨ next count index < count := by
  rcases Nat.eq_zero_or_pos count with rfl | hpos
  · exact .inl (next_of_le (Nat.zero_le index))
  · exact .inr (next_lt hpos index)

theorem previous_eq_zero_or_lt (count index : Nat) :
    previous count index = 0 ∨ previous count index < count := by
  rcases Nat.eq_zero_or_pos count with rfl | hpos
  · exact .inl (previous_of_le (Nat.zero_le index))
  · exact .inr (previous_lt hpos index)

/-- Steps of one length around a circle add up. -/
theorem iterate_eq_mod {f : Nat → Nat} {length : Nat}
    (h : ∀ i < count, f i = (i + length) % count) (hindex : index < count) (k : Nat) :
    f^[k] index = (index + k * length) % count := by
  induction k with
  | zero => rw [Function.iterate_zero_apply, Nat.zero_mul, Nat.add_zero, Nat.mod_eq_of_lt hindex]
  | succ k ih =>
    have hpos : 0 < count := by omega
    rw [Function.iterate_succ_apply', ih, h _ (Nat.mod_lt _ hpos), Nat.mod_add_mod,
      Nat.succ_mul, Nat.add_assoc]

/-- As many steps as there are places lead back. -/
theorem iterate_around {f : Nat → Nat} {length : Nat}
    (h : ∀ i < count, f i = (i + length) % count) (hindex : index < count) :
    f^[count] index = index := by
  rw [iterate_eq_mod h hindex, Nat.add_mul_mod_self_left, Nat.mod_eq_of_lt hindex]

theorem previous_next (h : index < count) : previous count (next count index) = index := by
  have hpos : 0 < count := by omega
  rw [previous_of_lt (next_lt hpos index), next_of_lt h, Nat.mod_add_mod,
    show index + 1 + (count - 1) = index + count by omega, Nat.add_mod_right, Nat.mod_eq_of_lt h]

theorem next_previous (h : index < count) : next count (previous count index) = index := by
  have hpos : 0 < count := by omega
  rw [next_of_lt (previous_lt hpos index), previous_of_lt h, Nat.mod_add_mod,
    show index + (count - 1) + 1 = index + count by omega, Nat.add_mod_right, Nat.mod_eq_of_lt h]

def pressed (offer : Offer) (nested : Bool) (line : List Char) (key : Key) (cursor : Nat) : Nat :=
  (after offer nested cursor line (.key key)).cursor

theorem pressed_arrowDown :
    pressed offer nested line .arrowDown = next (liveCount offer nested line) := by
  funext cursor
  rw [← length_insertions]
  rfl

theorem pressed_arrowUp :
    pressed offer nested line .arrowUp = previous (liveCount offer nested line) := by
  funext cursor
  rw [← length_insertions]
  rfl

/-- An arrow shows the panel of the line, with its mark at the new cursor. -/
theorem exists_panel_of_arrow {key : Key} (hkey : key = .arrowDown ∨ key = .arrowUp) :
    ∃ panel, (after offer nested cursor line (.key key)).view = .visible panel ∧
      (after offer nested cursor line (.key key)).completed = none ∧
      panel.innermost.candidates.length = liveCount offer nested line ∧
      (0 < liveCount offer nested line →
        panel.MarksOnly (pressed offer nested line key cursor)) := by
  refine ⟨(ofLine offer nested line).panel.select (pressed offer nested line key cursor),
    ?_, ?_, ?_, ?_⟩
  · rcases hkey with rfl | rfl <;> rfl
  · rcases hkey with rfl | rfl <;> rfl
  · rw [Panel.candidates_select, Panel.length_markAt]
    rfl
  · intro hpos
    rw [marksOnly_shown_iff]
    rcases hkey with rfl | rfl
    · rw [pressed_arrowDown]
      exact next_lt hpos cursor
    · rw [pressed_arrowUp]
      exact previous_lt hpos cursor

/-- The arrows walk around the candidates of the innermost panel, whatever the table, the line and
the nesting. From a candidate they go to the one after and to the one before it, so that they undo
each other, and as many presses of one arrow as there are candidates lead back. From a stale cursor
they go to the first candidate and to the last. The candidate that is reached is the only one that
any of the panels marks. -/
theorem arrows_walk_around (offer : Offer) (nested : Bool) (line : List Char) (cursor : Nat) :
    let count := liveCount offer nested line
    let down := pressed offer nested line .arrowDown
    let up := pressed offer nested line .arrowUp
    (count = 0 → down cursor = 0 ∧ up cursor = 0) ∧
      (cursor < count →
        down cursor = (cursor + 1) % count ∧ up cursor = (cursor + count - 1) % count ∧
        up (down cursor) = cursor ∧ down (up cursor) = cursor ∧
        down^[count] cursor = cursor ∧ up^[count] cursor = cursor) ∧
      (0 < count → count ≤ cursor → down cursor = 0 ∧ up cursor = count - 1) ∧
      ∀ key, key = .arrowDown ∨ key = .arrowUp → ∃ panel,
        (after offer nested cursor line (.key key)).view = .visible panel ∧
        (after offer nested cursor line (.key key)).completed = none ∧
        panel.innermost.candidates.length = count ∧
        (0 < count → panel.MarksOnly (pressed offer nested line key cursor)) := by
  intro count down up
  have hdown : down = next count := pressed_arrowDown
  have hup : up = previous count := pressed_arrowUp
  rw [hdown, hup]
  refine ⟨?_, ?_, ?_, fun key hkey => exists_panel_of_arrow hkey⟩
  · intro hzero
    rw [next_of_le (by omega), previous_of_le (by omega), hzero]
    exact ⟨rfl, rfl⟩
  · intro hlt
    have hbefore : cursor + count - 1 = cursor + (count - 1) := by omega
    refine ⟨next_of_lt hlt, by rw [previous_of_lt hlt, hbefore], previous_next hlt,
      next_previous hlt, ?_, ?_⟩
    · exact iterate_around (fun i hi => next_of_lt hi) hlt
    · exact iterate_around (fun i hi => previous_of_lt hi) hlt
  · intro _ hle
    exact ⟨next_of_le hle, previous_of_le hle⟩

theorem arrows_walk_around_sub_query :
    let offer : Offer := ⟨.builtin, [], []⟩
    let line := "compare zip 5 m".toList
    liveCount offer false line = 2 ∧ pressed offer false line .arrowDown 1 = 0 ∧
      pressed offer false line .arrowUp 0 = 1 ∧
      (pressed offer false line .arrowUp)^[2] 1 = 1 ∧
      pressed offer false line .arrowUp 7 = 1 ∧
      ∃ panel, (after offer false 1 line (.key .arrowDown)).view = .visible panel ∧
        panel.MarksOnly 0 := by
  intro offer line
  have hnest : step offer false line =
      .nest (described (titled "compare" false) ⟨"compare", 0⟩
        CommandTable.builtin.commands[10] 2 false) (some ⟨"m", 14⟩) :=
    rfl
  have hsub : subLine line (some ⟨"m", 14⟩) = ['m'] := by decide
  have hword : step offer true ['m'] = .done (ofCommands offer true "m" 0) := rfl
  have hcount : liveCount offer false line = 2 := by
    rw [liveCount, ofLine_nest hnest, hsub, ofLine_done hword]
    decide
  obtain ⟨_, hlive, _, hshown⟩ := arrows_walk_around offer false line 1
  obtain ⟨_, hfirst, _⟩ := arrows_walk_around offer false line 0
  obtain ⟨_, _, hstale, _⟩ := arrows_walk_around offer false line 7
  simp only [hcount] at hlive hfirst hstale hshown
  obtain ⟨hdown, _, _, _, _, hturn⟩ := hlive (by decide)
  obtain ⟨panel, hview, _, _, hmarks⟩ := hshown .arrowDown (.inl rfl)
  rw [hdown] at hmarks
  exact ⟨hcount, hdown, (hfirst (by decide)).2.1, hturn, (hstale (by decide) (by decide)).2,
    panel, hview, hmarks (by decide)⟩

end Suggestion

end Almanac
