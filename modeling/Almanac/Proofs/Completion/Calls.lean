import Almanac.Proofs.Completion.Arrows

/-!
Calls one after the other. The cursor is passed from one call to the next, while the line, and with
it the list of candidates, may change in between. An event that only shows a panel looks for the
cursor anew. Choosing a candidate does not: it takes the cursor, or the index that is pointed at,
and where the list has no such index the panel is shown without a mark.
-/

namespace Almanac

namespace InputEvent

/-- The index of the candidate that an event chooses. -/
def chosen? (cursor : Nat) : InputEvent → Option Nat
  | .key .tab => some cursor
  | .select index => some index
  | _ => none

/-- The event takes the cursor as it is, without a look at the line. -/
def usesCursor : InputEvent → Bool
  | .key .tab | .key .escape | .blur _ => true
  | _ => false

theorem of_chosen? {event : InputEvent} {cursor index : Nat}
    (h : event.chosen? cursor = some index) :
    event.usesCursor = true ∧ cursor = index ∨ event = .select index := by
  cases event with
  | key key =>
    cases key with
    | tab => exact .inl ⟨rfl, Option.some.inj h⟩
    | _ => cases h
  | select i => exact .inr (congrArg _ (Option.some.inj h))
  | _ => cases h

end InputEvent

namespace Suggestion

open Completion

variable {offer : Offer} {nested : Bool} {line : List Char} {cursor : Nat}

/-- Inserting a candidate leads to the panel of a longer line, with the mark at its first candidate.
Where there is no candidate to insert, the panel of the line is shown at the index that was looked
for. -/
theorem insert_cases (offer : Offer) (nested : Bool) (line : List Char) (index : Nat) :
    (∃ insertion, (ofLine offer nested line).insertions[index]? = some insertion ∧
      insert offer nested line index =
        let completed := completedLine line (ofLine offer nested line) insertion
        { shown (ofLine offer nested completed) 0 with completed := some completed }) ∨
    liveCount offer nested line ≤ index ∧
      insert offer nested line index = shown (ofLine offer nested line) index := by
  simp only [insert, ← length_insertions]
  split
  · rename_i hnone
    exact .inr ⟨List.getElem?_eq_none_iff.mp hnone, rfl⟩
  · rename_i insertion hsome
    exact .inl ⟨insertion, hsome, rfl⟩

theorem lt_liveCount {index : Nat} {insertion : String}
    (h : (ofLine offer nested line).insertions[index]? = some insertion) :
    index < liveCount offer nested line := by
  rw [← length_insertions]
  exact (List.getElem?_eq_some_iff.mp h).1

/-- What an event leads to: nothing is shown, or the panel of the line is, or a candidate is
inserted. -/
theorem after_cases (offer : Offer) (nested : Bool) (cursor : Nat) (line : List Char)
    (event : InputEvent) :
    (event.chosen? cursor = none ∧ event.usesCursor = true ∧
      (after offer nested cursor line event).panel? = none ∧
      (after offer nested cursor line event).cursor = cursor ∧
      (after offer nested cursor line event).completed = none) ∨
    (event.chosen? cursor = none ∧ ∃ index,
      (index = 0 ∨ index < liveCount offer nested line) ∧
      after offer nested cursor line event = shown (ofLine offer nested line) index) ∨
    ∃ index, event.chosen? cursor = some index ∧
      after offer nested cursor line event = insert offer nested line index := by
  cases event with
  | key key =>
    cases key with
    | arrowUp =>
      refine .inr (.inl ⟨rfl, _, previous_eq_zero_or_lt _ cursor, ?_⟩)
      rw [← length_insertions]
      rfl
    | arrowDown =>
      refine .inr (.inl ⟨rfl, _, next_eq_zero_or_lt _ cursor, ?_⟩)
      rw [← length_insertions]
      rfl
    | tab => exact .inr (.inr ⟨cursor, rfl, rfl⟩)
    | escape => exact .inl ⟨rfl, rfl, rfl, rfl, rfl⟩
    | other => exact .inr (.inl ⟨rfl, 0, .inl rfl, rfl⟩)
  | focus => exact .inr (.inl ⟨rfl, 0, .inl rfl, rfl⟩)
  | blur intoPanel => cases intoPanel <;> exact .inl ⟨rfl, rfl, rfl, rfl, rfl⟩
  | pointerDown => exact .inr (.inl ⟨rfl, 0, .inl rfl, rfl⟩)
  | pointerUp => exact .inr (.inl ⟨rfl, 0, .inl rfl, rfl⟩)
  | select index => exact .inr (.inr ⟨index, rfl, rfl⟩)

/-- What an event shows is the panel of the line, or of the line that it completes. -/
theorem exists_select_of_shown {event : InputEvent} {panel : Panel}
    (hshown : (after offer nested cursor line event).panel? = some panel) :
    ∃ index, panel = (ofLine offer nested
      ((after offer nested cursor line event).completed.getD line)).panel.select index := by
  rcases after_cases offer nested cursor line event with
    ⟨_, _, hnone, _⟩ | ⟨_, index, _, heq⟩ | ⟨index, _, hinsert⟩
  · rw [hnone] at hshown
    cases hshown
  · rw [heq] at hshown ⊢
    exact ⟨index, (Option.some.inj hshown).symm⟩
  · rcases insert_cases offer nested line index with ⟨_, _, heq⟩ | ⟨_, heq⟩
    · rw [hinsert, heq] at hshown ⊢
      exact ⟨0, (Option.some.inj hshown).symm⟩
    · rw [hinsert, heq] at hshown ⊢
      exact ⟨index, (Option.some.inj hshown).symm⟩

/-- What happens before the next call: an edit of the line, if there is one, and an event. -/
structure Move where
  edited : Option (List Char)
  event : InputEvent

structure Call where
  cursor : Nat
  line : List Char
  event : InputEvent

namespace Call

def answer (offer : Offer) (nested : Bool) (call : Call) : Suggestion :=
  after offer nested call.cursor call.line call.event

def result (offer : Offer) (nested : Bool) (call : Call) : List Char :=
  (call.answer offer nested).completed.getD call.line

/-- The call looks for a candidate where there is none. -/
def Misses (offer : Offer) (nested : Bool) (call : Call) : Prop :=
  ∃ index, call.event.chosen? call.cursor = some index ∧
    liveCount offer nested call.line ≤ index

end Call

/-- The calls of a run. Each one is passed the cursor that the call before it has returned, and the
line that this call has led to unless that is edited. -/
def calls (offer : Offer) (nested : Bool) (cursor : Nat) (line : List Char) :
    List Move → List Call
  | [] => []
  | move :: moves =>
    let call : Call := ⟨cursor, move.edited.getD line, move.event⟩
    call :: calls offer nested (call.answer offer nested).cursor (call.result offer nested) moves

variable {call : Call} {panel : Panel} {moves : List Move}

/-- A panel with candidates marks the one at the returned cursor, unless the call misses. -/
theorem Call.marksOnly_iff (hshown : (call.answer offer nested).panel? = some panel)
    (hsome : panel.innermost.candidates ≠ []) :
    panel.MarksOnly (call.answer offer nested).cursor ↔ ¬ call.Misses offer nested := by
  have hmarks (line : List Char) (index : Nat)
      (heq : (shown (ofLine offer nested line) index).panel? = some panel) :
      0 < liveCount offer nested line ∧
        (panel.MarksOnly index ↔ index < liveCount offer nested line) := by
    obtain rfl := Option.some.inj heq
    rw [Panel.candidates_select, ← List.length_pos_iff, Panel.length_markAt] at hsome
    exact ⟨hsome, marksOnly_shown_iff⟩
  rw [answer] at hshown ⊢
  rcases after_cases offer nested call.cursor call.line call.event with
    ⟨_, _, hnone, _⟩ | ⟨hchosen, index, hindex, heq⟩ | ⟨index, hchosen, hinsert⟩
  · rw [hnone] at hshown
    cases hshown
  · rw [heq] at hshown ⊢
    obtain ⟨hpos, hiff⟩ := hmarks call.line index hshown
    refine iff_of_true (hiff.mpr (by omega)) ?_
    rintro ⟨i, hi, _⟩
    rw [hchosen] at hi
    cases hi
  · rcases insert_cases offer nested call.line index with ⟨_, hget, heq⟩ | ⟨hle, heq⟩
    · rw [hinsert, heq] at hshown ⊢
      obtain ⟨hpos, hiff⟩ := hmarks _ 0 hshown
      refine iff_of_true (hiff.mpr hpos) ?_
      rintro ⟨i, hi, hmiss⟩
      obtain rfl := Option.some.inj (hchosen.symm.trans hi)
      exact absurd (lt_liveCount hget) (by omega)
    · rw [hinsert, heq] at hshown ⊢
      obtain ⟨_, hiff⟩ := hmarks call.line index hshown
      exact iff_of_false (fun h => absurd (hiff.mp h) (by omega)) fun h => h ⟨index, hchosen, hle⟩

/-- A call that misses shows the panel of the line as it is. -/
theorem Call.answer_of_misses (h : call.Misses offer nested) :
    ∃ index, call.event.chosen? call.cursor = some index ∧
      liveCount offer nested call.line ≤ index ∧
      call.answer offer nested = shown (ofLine offer nested call.line) index := by
  obtain ⟨index, hchosen, hle⟩ := h
  rcases after_cases offer nested call.cursor call.line call.event with
    ⟨hnone, _⟩ | ⟨hnone, _⟩ | ⟨i, hi, hinsert⟩
  · rw [hchosen] at hnone
    cases hnone
  · rw [hchosen] at hnone
    cases hnone
  · obtain rfl := Option.some.inj (hchosen.symm.trans hi)
    rcases insert_cases offer nested call.line index with ⟨_, hget, _⟩ | ⟨_, heq⟩
    · exact absurd (lt_liveCount hget) (by omega)
    · exact ⟨index, hchosen, hle, hinsert.trans heq⟩

/-- It returns the index as it is, and nothing is marked or inserted. -/
theorem Call.of_misses (h : call.Misses offer nested) :
    call.event.chosen? call.cursor = some (call.answer offer nested).cursor ∧
      (call.answer offer nested).completed = none ∧
      ∃ panel, (call.answer offer nested).panel? = some panel ∧ panel.selected? = none := by
  obtain ⟨index, hchosen, hle, heq⟩ := answer_of_misses h
  rw [heq]
  exact ⟨hchosen, rfl, _, rfl, Panel.selected?_select_of_le hle⟩

def Ready (offer : Offer) (nested : Bool) (cursor : Nat) (line : List Char) : Prop :=
  cursor = 0 ∨ cursor < liveCount offer nested line

/-- A call keeps the cursor in the list if it is there where the call takes it as it is, and if a
candidate is there where one is pointed at. -/
theorem Call.ready_answer
    (hready : call.event.usesCursor = true → Ready offer nested call.cursor call.line)
    (hselect : ∀ index, call.event = .select index → index < liveCount offer nested call.line) :
    Ready offer nested (call.answer offer nested).cursor (call.result offer nested) := by
  rw [result, answer]
  rcases after_cases offer nested call.cursor call.line call.event with
    ⟨_, huses, _, hcursor, hcompleted⟩ | ⟨_, index, hindex, heq⟩ | ⟨index, hchosen, hinsert⟩
  · rw [hcursor, hcompleted]
    exact hready huses
  · rw [heq]
    exact hindex
  · rcases insert_cases offer nested call.line index with ⟨_, _, heq⟩ | ⟨hle, heq⟩
    · rw [hinsert, heq]
      exact .inl rfl
    · rw [hinsert, heq]
      obtain ⟨huses, rfl⟩ | hevent := InputEvent.of_chosen? hchosen
      · exact hready huses
      · exact absurd (hselect index hevent) (by omega)

/-- The cursor that a call takes as it is stays in the list over a whole run, if no line is edited
right before such a call and if a candidate is there wherever one is pointed at. -/
theorem ready_of_mem_calls (hready : Ready offer nested cursor line)
    (hmoves : ∀ move ∈ moves, move.edited ≠ none → move.event.usesCursor = false)
    (hselect : ∀ call ∈ calls offer nested cursor line moves, ∀ index,
      call.event = .select index → index < liveCount offer nested call.line) :
    ∀ call ∈ calls offer nested cursor line moves, call.event.usesCursor = true →
      Ready offer nested call.cursor call.line := by
  induction moves generalizing cursor line with
  | nil => simp [calls]
  | cons move moves ih =>
    rw [List.forall_mem_cons] at hmoves
    rw [calls, List.forall_mem_cons] at hselect ⊢
    have hfirst : move.event.usesCursor = true →
        Ready offer nested cursor (move.edited.getD line) := by
      intro huses
      cases hedited : move.edited with
      | none => exact hready
      | some edited =>
        rw [hmoves.1 (by simp [hedited])] at huses
        cases huses
    exact ⟨hfirst, ih (Call.ready_answer hfirst hselect.1) hmoves.2 hselect.2⟩

/-- Such a call misses only where there is nothing to choose. -/
theorem Call.liveCount_of_misses
    (hready : call.event.usesCursor = true → Ready offer nested call.cursor call.line)
    (hselect : ∀ index, call.event = .select index → index < liveCount offer nested call.line)
    (h : call.Misses offer nested) : liveCount offer nested call.line = 0 := by
  obtain ⟨index, hchosen, hle⟩ := h
  obtain ⟨huses, rfl⟩ | hevent := InputEvent.of_chosen? hchosen
  · rcases hready huses with hzero | hlt <;> omega
  · exact absurd (hselect index hevent) (by omega)

/-- In every run of calls, a call that shows candidates marks the one at the cursor that it returns
and no other, exactly if it does not look for a candidate where there is none. One that does
returns the index that it looked for, and it marks nothing. No call is like that in a run in which
a candidate is there wherever one is pointed at, and no line is edited right before a call that
takes the cursor as it is. -/
theorem marksOnly_of_calls (offer : Offer) (nested : Bool) (line : List Char)
    (moves : List Move) :
    (∀ call ∈ calls offer nested 0 line moves,
      (∀ panel, (call.answer offer nested).panel? = some panel →
        panel.innermost.candidates ≠ [] →
        (panel.MarksOnly (call.answer offer nested).cursor ↔ ¬ call.Misses offer nested)) ∧
      (call.Misses offer nested →
        call.event.chosen? call.cursor = some (call.answer offer nested).cursor ∧
        (call.answer offer nested).completed = none ∧
        ∃ panel, (call.answer offer nested).panel? = some panel ∧ panel.selected? = none)) ∧
    ((∀ move ∈ moves, move.edited ≠ none → move.event.usesCursor = false) →
      (∀ call ∈ calls offer nested 0 line moves, ∀ index, call.event = .select index →
        index < liveCount offer nested call.line) →
      ∀ call ∈ calls offer nested 0 line moves, ∀ panel,
        (call.answer offer nested).panel? = some panel → panel.innermost.candidates ≠ [] →
        panel.MarksOnly (call.answer offer nested).cursor) := by
  refine ⟨fun call _ => ⟨fun panel => Call.marksOnly_iff, Call.of_misses⟩, ?_⟩
  intro hmoves hselect call hcall panel hshown hsome
  refine (Call.marksOnly_iff hshown hsome).mpr fun hmiss => ?_
  have hready := ready_of_mem_calls (.inl rfl) hmoves hselect call hcall
  have hzero := Call.liveCount_of_misses hready (hselect call hcall) hmiss
  obtain ⟨index, _, _, heq⟩ := Call.answer_of_misses hmiss
  rw [heq] at hshown
  obtain rfl := Option.some.inj hshown
  rw [← List.length_pos_iff, Panel.candidates_select, Panel.length_markAt] at hsome
  exact absurd hsome (by rw [← liveCount, hzero]; omega)

/-- Two commands start with `m`, and the arrow goes to the second one. -/
theorem pressed_m (rows dates : List String) :
    pressed ⟨.builtin, rows, dates⟩ false ['m'] .arrowDown 0 = 1 := by
  have hword : step ⟨.builtin, rows, dates⟩ false ['m'] =
      .done (ofCommands ⟨.builtin, rows, dates⟩ false "m" 0) :=
    rfl
  rw [pressed_arrowDown, liveCount, ofLine_done hword]
  rfl

theorem marksOnly_of_calls_row :
    let offer : Offer := ⟨.builtin, ["a"], []⟩
    let moves : List Move := [⟨some ['m'], .key .arrowDown⟩, ⟨none, .key .tab⟩]
    ∃ call ∈ calls offer false 0 [] moves, ∃ panel,
      (call.answer offer false).completed = some "max ".toList ∧
      (call.answer offer false).panel? = some panel ∧
      panel.MarksOnly (call.answer offer false).cursor := by
  intro offer moves
  have hcalls : calls offer false 0 [] moves =
      [⟨0, ['m'], .key .arrowDown⟩, ⟨1, ['m'], .key .tab⟩] := by
    rw [← pressed_m ["a"] []]
    rfl
  have hword : step offer false ['m'] = .done (ofCommands offer false "m" 0) := rfl
  have hrow : step offer false "max ".toList =
      .done (ofValues (described (titled "max" false) ⟨"max", 0⟩
        CommandTable.builtin.commands[4] 0 false) ⟨0, 4⟩ ["`a`"]) :=
    rfl
  have hanswer : Call.answer offer false ⟨1, ['m'], .key .tab⟩ =
      { shown (ofLine offer false "max ".toList) 0 with completed := some "max ".toList } := by
    change insert offer false ['m'] 1 = _
    rw [insert, ofLine_done hword]
    rfl
  obtain ⟨_, hmarks⟩ := marksOnly_of_calls offer false [] moves
  rw [hcalls] at hmarks ⊢
  refine ⟨_, List.mem_cons_of_mem _ List.mem_cons_self, _, by rw [hanswer], by rw [hanswer]; rfl,
    hmarks ?_ ?_ _ (List.mem_cons_of_mem _ List.mem_cons_self) _ (by rw [hanswer]; rfl) ?_⟩
  · simp [moves, InputEvent.usesCursor]
  · simp
  · rw [ofLine_done hrow]
    decide

/-- An edit that makes the list shorter leaves the cursor behind. Choosing then marks nothing,
although there is a candidate. -/
theorem stale_cursor_marks_nothing :
    let offer : Offer := ⟨.builtin, [], []⟩
    let moves : List Move := [⟨some ['m'], .key .arrowDown⟩, ⟨some ['m', 'i'], .key .tab⟩]
    ∃ call ∈ calls offer false 0 [] moves, ∃ panel,
      (call.answer offer false).panel? = some panel ∧ panel.innermost.candidates ≠ [] ∧
      ¬ (call.answer offer false).cursor < panel.innermost.candidates.length ∧
      panel.selected? = none := by
  intro offer moves
  have hcalls : calls offer false 0 [] moves =
      [⟨0, ['m'], .key .arrowDown⟩, ⟨1, ['m', 'i'], .key .tab⟩] := by
    rw [← pressed_m [] []]
    rfl
  have hword : step offer false ['m', 'i'] = .done (ofCommands offer false "mi" 0) := rfl
  have hanswer : Call.answer offer false ⟨1, ['m', 'i'], .key .tab⟩ =
      shown (ofCommands offer false "mi" 0) 1 := by
    change insert offer false ['m', 'i'] 1 = _
    rw [insert, ofLine_done hword]
    rfl
  rw [hcalls]
  refine ⟨_, List.mem_cons_of_mem _ List.mem_cons_self, _, by rw [hanswer]; rfl, ?_, ?_, ?_⟩
  · decide
  · rw [hanswer]
    decide
  · decide

end Suggestion

end Almanac
