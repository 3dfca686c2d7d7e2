import Almanac.Proofs.Completion.Positions
import Almanac.Proofs.Table.Builtin

/-!
Completion only adds to a line. What an insertion replaces is the unfinished end of the line, and
every candidate, as it is shown and as it is inserted, starts with just that end. So whichever
candidate is chosen, the line is kept, and a blank follows what is added.
-/

namespace Almanac

namespace Panel

def outer : Panel → List Panel
  | ⟨header, hint, signature, values, candidates, message, some inner⟩ =>
    ⟨header, hint, signature, values, candidates, message, some inner⟩ :: inner.outer
  | _ => []

theorem innermost_of_none {panel : Panel} (h : panel.nested = none) : panel.innermost = panel := by
  cases panel
  cases h
  rfl

theorem innermost_nested (panel inner : Panel) :
    ({ panel with nested := some inner } : Panel).innermost = inner.innermost := by
  rw [innermost]

/-- Selecting a candidate only marks the candidates of the innermost panel. -/
theorem innermost_select (index : Nat) : ∀ panel : Panel,
    (panel.select index).innermost =
      { panel.innermost with candidates := markAt index panel.innermost.candidates }
  | ⟨_, _, _, _, _, _, none⟩ => rfl
  | ⟨_, _, _, _, _, _, some inner⟩ => by
    rw [select, innermost, innermost]
    exact innermost_select index inner

theorem outer_of_none {panel : Panel} (h : panel.nested = none) : panel.outer = [] := by
  cases panel
  cases h
  rfl

theorem outer_nested (panel inner : Panel) :
    ({ panel with nested := some inner } : Panel).outer =
      { panel with nested := some inner } :: inner.outer := by
  rw [outer]

end Panel

theorem Candidate.split_of_prefix {c : Candidate} {typed : List Char}
    (hstarts : typed <+: c.text.toList) (hwidth : c.typed = Text.width typed) :
    c.split.1 = String.ofList typed := by
  obtain ⟨rest, hrest⟩ := hstarts
  rw [split, ← hrest, hwidth, Text.takeWidth_width_append]

namespace Command

theorem prefix_displayName (c : Command) : c.name.toList <+: c.displayName.toList := by
  rw [displayName]
  split
  · exact List.prefix_refl _
  · simp [String.toList_append]

theorem prefix_insertion (c : Command) : c.name.toList <+: c.insertion.toList := by
  rw [insertion]
  split
  · exact List.prefix_refl _
  · simp [String.toList_append]

/-- Where an argument of its own is typed, the position is that of the tokens. -/
theorem currentParam_eq {c : Command} (hcheck : c.check = .ok ()) {line : List Char}
    {tokens : List Token} {second : Bool} {p : Param}
    (hp : c.params[Completion.currentParam line tokens c second]? = some p)
    (hkind : p.kind ≠ .subQuery) :
    Completion.currentParam line tokens c second =
      tokens.length - (if endsWithSeparator line && !hasOpenQuote line then 1 else 2) := by
  simp only [Completion.currentParam] at hp ⊢
  generalize tokens.length - (if endsWithSeparator line && !hasOpenQuote line then 1 else 2) =
    position at hp ⊢
  split
  · rename_i htwo
    rw [if_pos htwo] at hp
    split
    · rename_i first hfirst
      simp only [hfirst] at hp
      split
      · rename_i hreached
        rw [if_pos hreached] at hp
        -- The slots of a command with two sub-queries lie behind its own parameters.
        have hslot : c.positional.length ≤ Completion.slot c second := by
          rw [Completion.slot_eq htwo]
          exact Nat.le_add_right _ _
        exact absurd (kind_of_positional_le hcheck hslot hp) hkind
      · rfl
    · rfl
  · rfl

end Command

namespace Completion

/-- A completion that replaces the unfinished end of a line by texts that start with it. Only the
innermost panel has candidates, one for each insertion. -/
structure Continues (line : List Char) (c : Completion) : Prop where
  outer : ∀ panel ∈ c.panel.outer, panel.candidates = []
  parallel : c.insertions.length = c.panel.innermost.candidates.length
  unfinished : ∃ front typed, line = front ++ typed ∧ Text.width front = c.replaceFrom ∧
    (∀ insertion ∈ c.insertions, typed <+: insertion.toList) ∧
    ∀ candidate ∈ c.panel.innermost.candidates,
      typed <+: candidate.text.toList ∧ candidate.split.1 = String.ofList typed

variable {offer : Offer} {nested : Bool} {line front typed : List Char}

structure Paired (c : Completion) : Prop where
  outer : ∀ panel ∈ c.panel.outer, panel.candidates = []
  parallel : c.insertions.length = c.panel.innermost.candidates.length

theorem paired_of_flat {c : Completion} (hnested : c.panel.nested = none)
    (hparallel : c.insertions.length = c.panel.candidates.length) : c.Paired where
  outer := by simp [Panel.outer_of_none hnested]
  parallel := by rw [Panel.innermost_of_none hnested, hparallel]

theorem Paired.around {panel : Panel} {inner : Completion} (h : inner.Paired)
    (hcandidates : panel.candidates = []) (offset : Nat) :
    (around panel offset inner).Paired where
  outer := by
    rw [Completion.around, Panel.outer_nested]
    exact List.forall_mem_cons.mpr ⟨hcandidates, h.outer⟩
  parallel := by
    rw [Completion.around, Panel.innermost_nested]
    exact h.parallel

theorem extends?_iff {typed text : String} :
    extends? typed text = true ↔ typed.toList <+: text.toList :=
  List.isPrefixOf_iff_prefix

/-- Without sub-queries there is one panel to look at. -/
theorem continues_of_flat {c : Completion} (hnested : c.panel.nested = none)
    (hparallel : c.insertions.length = c.panel.candidates.length) (hline : line = front ++ typed)
    (hstart : Text.width front = c.replaceFrom)
    (hinsertions : ∀ insertion ∈ c.insertions, typed <+: insertion.toList)
    (hcandidates : ∀ candidate ∈ c.panel.candidates,
      typed <+: candidate.text.toList ∧ candidate.typed = Text.width typed) :
    Continues line c := by
  have hpaired := paired_of_flat hnested hparallel
  refine ⟨hpaired.outer, hpaired.parallel, front, typed, hline, hstart, hinsertions, ?_⟩
  intro candidate h
  rw [Panel.innermost_of_none hnested] at h
  obtain ⟨hstarts, hwidth⟩ := hcandidates candidate h
  exact ⟨hstarts, Candidate.split_of_prefix hstarts hwidth⟩

theorem continues_closed {panel : Panel} (hcandidates : panel.candidates = [])
    (hnested : panel.nested = none) (hline : line = front ++ typed) :
    Continues line (closed panel (Text.width front)) :=
  continues_of_flat hnested (by simp [closed, hcandidates]) hline rfl (by simp [closed])
    (by simp [closed, hcandidates])

theorem continues_ofCommands {typed : String} (hline : line = front ++ typed.toList) :
    Continues line (ofCommands offer nested typed (Text.width front)) := by
  refine continues_of_flat rfl (by simp [ofCommands]) hline rfl ?_ ?_
  · intro insertion h
    obtain ⟨c, hc, rfl⟩ := List.mem_map.mp h
    exact (extends?_iff.mp (List.mem_filter.mp hc).2).trans c.prefix_insertion
  · intro candidate h
    obtain ⟨c, hc, rfl⟩ := List.mem_map.mp h
    exact ⟨(extends?_iff.mp (List.mem_filter.mp hc).2).trans c.prefix_displayName, rfl⟩

theorem continues_ofVariants {head : Token} {overloads : List Command} {panel : Panel}
    {typed : String} (hcandidates : panel.candidates = []) (hnested : panel.nested = none)
    (hline : line = front ++ typed.toList) :
    Continues line
      (ofVariants head overloads panel typed (Text.width front) (Text.width line)) := by
  rw [ofVariants]
  split
  · exact continues_closed hcandidates hnested (List.append_nil line).symm
  · refine continues_of_flat hnested (by simp) hline rfl ?_ ?_
    · intro insertion h
      exact extends?_iff.mp (List.mem_filter.mp h).2
    · intro candidate h
      obtain ⟨d, hd, rfl⟩ := List.mem_map.mp h
      exact ⟨extends?_iff.mp (List.mem_filter.mp hd).2, rfl⟩

theorem continues_ofValues {panel : Panel} {spot : Place} {values : List String}
    (hnested : panel.nested = none) (hline : line = front ++ typed)
    (hstart : Text.width front = spot.start) (htyped : Text.width typed = spot.typed)
    (hvalues : ∀ value ∈ values, typed <+: value.toList) :
    Continues line (ofValues panel spot values) := by
  refine continues_of_flat hnested (by simp [ofValues]) hline hstart hvalues ?_
  intro candidate h
  obtain ⟨value, hvalue, rfl⟩ := List.mem_map.mp h
  exact ⟨hvalues value hvalue, htyped.symm⟩

theorem exists_front {last : Token} {xs : List Token} (h : Token.scan line = xs ++ [last])
    (hopen : endsWithSeparator line = false) :
    ∃ front, line = front ++ last.text.toList ∧ Text.width front = last.start := by
  obtain ⟨front, hcut⟩ := Token.exists_lastCut h hopen
  exact ⟨front, by rw [hcut.line_eq, List.append_nil], hcut.start_eq⟩

theorem exists_place {last : Token} {xs : List Token} (h : Token.scan line = xs ++ [last]) :
    ∃ front typed, line = front ++ typed ∧ Text.width front = (place line last).start ∧
      Text.width typed = (place line last).typed ∧
      (typed = [] ∨ typed = last.text.toList ∧ endsWithSeparator line = false) := by
  cases hsep : endsWithSeparator line with
  | true =>
    exact ⟨line, [], by simp, by simp [place, hsep], by simp [place, hsep, Text.width], .inl rfl⟩
  | false =>
    obtain ⟨front, hline, hstart⟩ := exists_front h hsep
    refine ⟨front, last.text.toList, hline, ?_, ?_, .inr ⟨rfl, rfl⟩⟩
    · simp [place, hsep, hstart]
    · simp [place, hsep, Text.byteLength]

/-- What is entered for an argument of its own is what is typed of the last token. -/
theorem prefix_entered {c : Command} (hcheck : c.check = .ok ()) {head : Token}
    {tail : List Token} {second : Bool} {p : Param}
    (hp : c.params[currentParam line (head :: tail) c second]? = some p)
    (hkind : p.kind ≠ .subQuery) (hbegun : tail ≠ [] ∨ endsWithSeparator line = true)
    (htyped : typed = [] ∨
      typed = (tail.getLast?.getD head).text.toList ∧ endsWithSeparator line = false) :
    typed <+: (entered tail (currentParam line (head :: tail) c second)).toList := by
  rcases htyped with rfl | ⟨rfl, hopen⟩
  · exact List.nil_prefix
  · have hne : tail ≠ [] := hbegun.resolve_right (by simp [hopen])
    have hcurrent : currentParam line (head :: tail) c second = tail.length - 1 := by
      rw [Command.currentParam_eq hcheck hp hkind, hopen]
      simp
    rw [hcurrent, entered, ← List.getLast?_eq_getElem?, List.getLast?_eq_some_getLast hne]
    exact List.prefix_refl _

/-- Values continue the line if they start with what is entered for the argument. -/
theorem continues_of_argument (hcheck : offer.table.check = .ok ()) {head : Token}
    {tail : List Token} {c : Command} {current : Nat} {second : Bool} {p : Param}
    {panel : Panel} {values : List String} (hnested : panel.nested = none)
    (hat : AtArgument offer nested line head tail c current second)
    (hp : c.params[current]? = some p) (hkind : p.kind ≠ .subQuery)
    (hvalues : ∀ value ∈ values, (entered tail current).toList <+: value.toList) :
    Continues line (ofValues panel (place line (tail.getLast?.getD head)) values) := by
  obtain ⟨xs, hxs⟩ := List.getLast?_eq_some_iff.mp (List.getLast?_cons (a := head) (l := tail))
  obtain ⟨front, typed, hline, hstart, hwidth, htyped⟩ :=
    exists_place (hat.begun.scan.trans hxs)
  have hsound := ((CommandTable.check_eq_ok_iff _).mp hcheck).1 c
    (CommandTable.of_mem_visibleOverloads (mem_of_typedCommand? hat.typed)).1
  obtain rfl := hat.current_eq
  have hstarts := prefix_entered hsound hp hkind hat.begun.more htyped
  exact continues_ofValues hnested hline hstart hwidth fun value hvalue =>
    hstarts.trans (hvalues value hvalue)

/-- A completion that is made at once continues the line. -/
theorem continues_step (hcheck : offer.table.check = .ok ()) {completion : Completion}
    (h : step offer nested line = .done completion) : Continues line completion := by
  cases atOnce_of_step h with
  | blank hscan => exact continues_ofCommands (by simp)
  | @word t hscan hopen =>
    obtain ⟨front, hline, hstart⟩ := @exists_front line t [] hscan hopen
    rw [← hstart]
    exact continues_ofCommands hline
  | @overload head tail hbegun hmany htyping =>
    cases tail with
    | nil => exact continues_ofVariants rfl rfl (by simp)
    | cons t rest =>
      obtain ⟨rfl, hopen⟩ : rest = [] ∧ endsWithSeparator line = false := by
        simpa [typingVariant] using htyping
      obtain ⟨front, hline, hstart⟩ := @exists_front line t [head] hbegun.scan hopen
      rw [List.head?_cons, Option.elim_some, Option.elim_some, ← hstart]
      exact continues_ofVariants rfl rfl hline
  | refused hbegun huntyped hnot hexplains =>
    exact continues_closed hexplains.candidates hexplains.nested (List.append_nil line).symm
  | row hat hp hkind =>
    refine continues_of_argument hcheck rfl hat hp (by simp [hkind]) ?_
    intro value hvalue
    obtain ⟨row, hrow, rfl⟩ := List.mem_map.mp hvalue
    have hquoted : ("`" ++ row).toList <+: (quoteRow row).toList := by
      simp [quoteRow, String.toList_append]
    exact (extends?_iff.mp (List.mem_filter.mp hrow).2).trans hquoted
  | date hat hp hkind =>
    refine continues_of_argument hcheck rfl hat hp (by simp [hkind]) ?_
    exact fun value hvalue => extends?_iff.mp (List.mem_filter.mp hvalue).2
  | @told head tail _ _ _ hat message hother =>
    obtain ⟨xs, hxs⟩ := List.getLast?_eq_some_iff.mp (List.getLast?_cons (a := head) (l := tail))
    obtain ⟨front, typed, hline, hstart, -, -⟩ := exists_place (hat.begun.scan.trans hxs)
    rw [← hstart]
    exact continues_closed rfl rfl hline

/-! Sub-queries -/

theorem candidates_of_nest {panel : Panel} {start : Option Token}
    (h : step offer nested line = .nest panel start) : panel.candidates = [] := by
  obtain ⟨_, _, _, _, _, _, _, rfl, _⟩ := exists_atArgument_of_nest h
  rfl

theorem Continues.around {panel : Panel} {inner : Completion} {sub : List Char}
    (h : Continues sub inner) (hcandidates : panel.candidates = []) (hline : line = front ++ sub) :
    Continues line (around panel (Text.width front) inner) := by
  obtain ⟨before, typed, hsub, hstart, hinsertions, hshown⟩ := h.unfinished
  have hpaired : (Completion.around panel (Text.width front) inner).Paired :=
    Paired.around ⟨h.outer, h.parallel⟩ hcandidates _
  refine ⟨hpaired.outer, hpaired.parallel, front ++ before, typed, ?_, ?_, hinsertions, ?_⟩
  · rw [hline, hsub, List.append_assoc]
  · rw [Text.width_append, hstart]
    rfl
  · rw [Completion.around, Panel.innermost_nested]
    exact hshown

theorem continues_ofLine_of_check (hcheck : offer.table.check = .ok ()) (nested : Bool)
    (line : List Char) : Continues line (ofLine offer nested line) := by
  refine ofLine_induct (motive := fun _ line c => Continues line c) ?_ ?_ nested line
  · intro nested line completion h
    exact continues_step hcheck h
  · intro nested line panel start h hsub
    obtain ⟨front, _, hline, hstart⟩ := exists_front_of_nest h
    rw [← hstart]
    exact hsub.around (candidates_of_nest h) hline

/-! What choosing a candidate leads to -/

/-- An insertion replaces the unfinished end of the line, with which it starts. -/
theorem Continues.exists_completedLine {c : Completion} (h : Continues line c) {insertion : String}
    (hmem : insertion ∈ c.insertions) :
    ∃ front typed, line = front ++ typed ∧ typed <+: insertion.toList ∧
      Suggestion.completedLine line c insertion = front ++ insertion.toList ++ [' '] := by
  obtain ⟨front, typed, hline, hstart, hinsertions, _⟩ := h.unfinished
  refine ⟨front, typed, hline, hinsertions insertion hmem, ?_⟩
  rw [Suggestion.completedLine, ← hstart, hline, Text.takeWidth_width_append]

end Completion

namespace Suggestion

variable {offer : Offer} {nested : Bool} {line : List Char} {index : Nat} {insertion : String}

theorem completed_insert
    (h : (Completion.ofLine offer nested line).insertions[index]? = some insertion) :
    (insert offer nested line index).completed =
      some (completedLine line (Completion.ofLine offer nested line) insertion) := by
  simp only [insert, h]

end Suggestion

namespace Completion

variable {offer : Offer}

/-- Completion ends, and it keeps what is typed. Everything that is taken by its position is there,
and the line is cut between characters. The part of a line that a sub-query is completed from is a
proper end of the line. Only the innermost panel has candidates, one for each insertion,
and each of them starts with the unfinished end of the line, both as it is shown and as it is
inserted. Choosing one leads to a longer line with a blank at its end. -/
theorem ofLine_keeps_line (hcheck : offer.table.check = .ok ()) (nested : Bool)
    (line : List Char) :
    complete? offer nested line = some (ofLine offer nested line) ∧
    (∀ panel start, step offer nested line = .nest panel start →
      ∃ front, front ≠ [] ∧ line = front ++ subLine line start ∧
        Text.width front = subOffset line start ∧
        ofLine offer nested line =
          around panel (Text.width front) (ofLine offer true (subLine line start))) ∧
    Continues line (ofLine offer nested line) ∧
    ∀ index < (ofLine offer nested line).panel.innermost.candidates.length, ∀ cursor,
      ∃ completed, line <+: completed ∧ completed.getLast? = some ' ' ∧
        (Suggestion.after offer nested index line (.key .tab)).completed = some completed ∧
        (Suggestion.after offer nested cursor line (.select index)).completed =
          some completed := by
  have hcontinues := continues_ofLine_of_check hcheck nested line
  refine ⟨complete?_eq offer nested line, ?_, hcontinues, ?_⟩
  · intro panel start h
    obtain ⟨front, hne, hline, hstart⟩ := exists_front_of_nest h
    exact ⟨front, hne, hline, hstart, by rw [hstart, ofLine_nest h]⟩
  · intro index hindex cursor
    rw [← hcontinues.parallel] at hindex
    obtain ⟨insertion, hget⟩ : ∃ insertion,
        (ofLine offer nested line).insertions[index]? = some insertion :=
      ⟨_, List.getElem?_eq_getElem hindex⟩
    obtain ⟨front, typed, hline, ⟨rest, hrest⟩, hcompleted⟩ :=
      hcontinues.exists_completedLine (List.mem_of_getElem? hget)
    have hinsert := Suggestion.completed_insert hget
    rw [hcompleted] at hinsert
    refine ⟨_, ⟨rest ++ [' '], ?_⟩, ?_, hinsert, hinsert⟩
    · rw [hline, ← hrest]
      simp only [List.append_assoc]
    · simp

theorem ofLine_keeps_subQuery :
    ∃ completed, "compare zip 5 m".toList <+: completed ∧ completed.getLast? = some ' ' ∧
      (Suggestion.after ⟨.builtin, [], []⟩ false 1 "compare zip 5 m".toList
        (.key .tab)).completed = some completed := by
  have hnest : step ⟨.builtin, [], []⟩ false "compare zip 5 m".toList =
      .nest (described (titled "compare" false) ⟨"compare", 0⟩
        CommandTable.builtin.commands[10] 2 false) (some ⟨"m", 14⟩) :=
    rfl
  have hsub : subLine "compare zip 5 m".toList (some ⟨"m", 14⟩) = ['m'] := by decide
  have hword : step ⟨.builtin, [], []⟩ true ['m'] =
      .done (ofCommands ⟨.builtin, [], []⟩ true "m" 0) :=
    rfl
  have hcount : 1 <
      (ofLine ⟨.builtin, [], []⟩ false
        "compare zip 5 m".toList).panel.innermost.candidates.length := by
    rw [ofLine_nest hnest, hsub, ofLine_done hword]
    decide
  obtain ⟨completed, hstarts, hblank, htab, -⟩ :=
    (@ofLine_keeps_line ⟨.builtin, [], []⟩ CommandTable.builtin_sound false
      "compare zip 5 m".toList).2.2.2 1 hcount 0
  exact ⟨completed, hstarts, hblank, htab⟩

end Completion

end Almanac
