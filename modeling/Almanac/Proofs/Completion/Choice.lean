import Almanac.Proofs.Completion.Calls
import Almanac.Proofs.Completion.Continuation
import Almanac.Proofs.Query.OpenRun
import Mathlib.Logic.Relation

/-!
Completion leads into no dead end. A line that can be continued to a query still can be after any
of the candidates is chosen: behind finished tokens the insertion fits what may follow them, and
within a quoted run the insertion adds no quote, so that it only makes the run longer.
-/

namespace Almanac

open CommandTable Grammar Token

namespace Token

/-- What follows a word makes the token that it starts longer, and nothing else. -/
theorem exists_scan_of_word {word : List Char} (hne : word ≠ []) (hblank : ' ' ∉ word)
    (hquote : word.head? ≠ some '"') (more : List Char) :
    ∃ t rest, scan (word ++ more) = t :: rest ∧ word <+: t.text.toList := by
  have hkeep : ∀ c ∈ word, decide (c = ' ') = false := by
    intro c hc
    rw [decide_eq_false_iff_not]
    rintro rfl
    exact hblank hc
  obtain ⟨piece, rest, hpieces⟩ :=
    List.exists_cons_of_ne_nil (Text.pieces_ne_nil (· = ' ') more)
  have hopens : opensRun (word ++ piece) = false := by
    obtain ⟨first, word, rfl⟩ := List.exists_cons_of_ne_nil hne
    have hfirst : first ≠ '"' := by simpa using hquote
    simp [opensRun, hfirst]
  rw [scan, Text.pieces_append hkeep, hpieces, List.modifyHead_cons, ofPieces,
    if_neg (by simp [hne]), if_neg (by simp [hopens])]
  exact ⟨_, _, rfl, by simp⟩

/-! Lines in which quotes pair up within each token -/

theorem evenQuotes_iff {line : List Char} :
    EvenQuotes line ↔ ∀ word ∈ (scan line).map text, Even (word.toList.count '"') := by
  simp [EvenQuotes]

theorem EvenQuotes.of_settled {front typed : List Char} (h : EvenQuotes (front ++ typed))
    (hfront : Settled front) : EvenQuotes front := by
  intro t ht
  refine h t ?_
  rw [scan_append hfront]
  exact List.mem_append_left _ ht

/-- Words without quotes can be written behind a settled line. -/
theorem EvenQuotes.append_words {front : List Char} (h : EvenQuotes front) (hfront : Settled front)
    {words : List String} (hplain : ∀ word ∈ words, Plain word) (hnone : '"' ∉ lineOf words) :
    EvenQuotes (front ++ lineOf words) := by
  rw [evenQuotes_iff, map_text_scan_append hfront, scan_lineOf hplain, List.forall_mem_append]
  refine ⟨evenQuotes_iff.mp h, ?_⟩
  intro word hword
  have hcount : word.toList.count '"' = 0 := by
    rw [List.count_eq_zero]
    intro hquote
    exact hnone (List.mem_flatMap.mpr
      ⟨word.toList, List.mem_map_of_mem hword, List.mem_append_left _ hquote⟩)
  rw [hcount]
  exact Even.zero

/-- Text without quotes can be written into an open run. -/
theorem EvenQuotes.append_open {ps : List (List Char)} (h : EvenQuotes (Text.ended ' ' ps))
    (hps : ∀ p ∈ ps, ' ' ∉ p) (hopen : openAfter false ps = true) {added : List Char}
    (hadded : '"' ∉ added) : EvenQuotes (Text.ended ' ' ps ++ (added ++ [' '])) := by
  obtain ⟨before, opening, inside, closing, after, -, hinside, -, htexts, hothers⟩ :=
    exists_open_token hps hopen hadded []
  rw [List.append_nil] at htexts hothers
  rw [evenQuotes_iff, htexts, List.forall_mem_append, List.forall_mem_cons] at h
  obtain ⟨hbefore, htext, hafter⟩ := h
  rw [evenQuotes_iff, hothers, List.forall_mem_append, List.forall_mem_cons]
  refine ⟨hbefore, ?_, hafter⟩
  rw [String.toList_ofList, List.count_append] at htext ⊢
  rw [List.count_append, List.count_eq_zero.mpr hinside, Nat.add_zero]
  exact htext

end Token

namespace Completion

variable {offer : Offer} {days : Nat} {nested : Bool} {line front typed : List Char}
  {insertion : String}

/-! What is inserted -/

def Offered (offer : Offer) (insertion : String) : Prop :=
  (∃ c ∈ offer.table.commands, insertion = c.insertion ∨ c.discriminant = some insertion) ∨
    ∃ kind entered, insertion ∈ valuesFor offer entered (some kind)

theorem offered_of_commands {typed : String} {start : Nat}
    (h : insertion ∈ (ofCommands offer nested typed start).insertions) :
    Offered offer insertion := by
  obtain ⟨c, hc, rfl⟩ := List.mem_map.mp h
  exact .inl ⟨c, List.mem_of_mem_filter (List.mem_of_mem_filter hc), .inl rfl⟩

theorem offered_of_variants {head : Token} {panel : Panel} {typed : String} {start stop : Nat}
    (h : insertion ∈ (ofVariants head (offer.table.visibleOverloads head.text nested) panel typed
      start stop).insertions) : Offered offer insertion := by
  rw [ofVariants] at h
  split at h
  · cases h
  · obtain ⟨c, hc, hword⟩ := List.mem_filterMap.mp (List.mem_of_mem_filter h)
    exact .inl ⟨c, (of_mem_visibleOverloads hc).1, .inr hword⟩

theorem offered_of_step {completion : Completion}
    (hdone : step offer nested line = .done completion) (h : insertion ∈ completion.insertions) :
    Offered offer insertion := by
  cases atOnce_of_step hdone with
  | blank hscan => exact offered_of_commands h
  | word hscan hopen => exact offered_of_commands h
  | overload hbegun hmany htyping => exact offered_of_variants h
  | refused => cases h
  | row hat hp hkind => exact .inr ⟨.row, _, h⟩
  | date hat hp hkind => exact .inr ⟨.date, _, h⟩
  | told => cases h

theorem offered_of_mem (h : insertion ∈ (ofLine offer nested line).insertions) :
    Offered offer insertion := by
  have hall : ∀ insertion ∈ (ofLine offer nested line).insertions, Offered offer insertion := by
    refine ofLine_induct
      (motive := fun _ _ c => ∀ insertion ∈ c.insertions, Offered offer insertion) ?_ ?_ nested line
    · intro nested line completion hdone insertion
      exact offered_of_step hdone
    · intro nested line panel start _ hsub
      exact hsub
  exact hall insertion h

theorem builtin_quoteless : ∀ c ∈ builtin.commands,
    '"' ∉ c.insertion.toList ∧ ∀ word ∈ c.discriminant, '"' ∉ word.toList := by
  decide

theorem quoteless_of_mem (hoffer : offer.Usable)
    (h : insertion ∈ (ofLine offer nested line).insertions) : '"' ∉ insertion.toList := by
  rcases offered_of_mem h with ⟨c, hc, hinsertion⟩ | ⟨kind, entered, hvalue⟩
  · rw [hoffer.table_eq] at hc
    obtain ⟨hcommand, hword⟩ := builtin_quoteless c hc
    rcases hinsertion with rfl | hdiscriminant
    · exact hcommand
    · exact hword insertion hdiscriminant
  · exact (@fits_of_mem_valuesFor offer 0 hoffer _ _ _ hvalue).2.2

/-! What choosing leads to -/

/-- A command word that is being typed is the start of the text that comes to stand there. -/
theorem Typing.extends_word (h : Typing front typed) (more : List Char) {t : Token}
    (ht : t ∈ pending front typed) (hword : builtin.isCommandName t.text = true) :
    ∃ text, ((scan (typed ++ more)).map Token.text).head? = some text ∧
      t.text.toList <+: text.toList := by
  have hwords : ∀ word ∈ commandWords, Plain word ∧ Unquoted word := by decide
  obtain ⟨⟨hne, hblank, -⟩, hquote⟩ := hwords t.text (isCommandName_builtin_iff.mp hword)
  have htext : t.text.toList = typed := by
    rcases h.cases with ⟨-, hpending, -⟩ | ⟨hpending, -⟩
    · rw [hpending] at ht
      cases ht
    · rw [hpending] at ht
      rw [List.mem_singleton.mp ht, String.toList_ofList]
  rw [htext] at hne hblank
  rw [Unquoted, htext] at hquote
  obtain ⟨u, rest, hscan, hstarts⟩ := exists_scan_of_word hne hblank hquote more
  exact ⟨u.text, by rw [hscan]; rfl, htext ▸ hstarts⟩

/-- Quotes pair up within each token of the line, and it can be continued to a query. -/
structure Continuable (days : Nat) (line : List Char) : Prop where
  quotes : EvenQuotes line
  viable : ∃ more, Query.isValid builtin days false (String.ofList (line ++ more)) = true

/-- Behind a settled front, choosing puts whole words in the place of what is typed. -/
theorem Typing.continuable (h : Typing front typed) (hoffer : offer.Usable) {more : List Char}
    (hvalid : Query.isValid builtin days false (String.ofList (front ++ typed ++ more)) = true)
    (hmem : insertion ∈ (ofLine offer false (front ++ typed)).insertions) :
    Continuable days (Suggestion.completedLine (front ++ typed)
      (ofLine offer false (front ++ typed)) insertion) := by
  rw [Query.isValid_ofList_iff, List.append_assoc, map_text_scan_append h.settled] at hvalid
  obtain ⟨hfrom, words, hplain, hwords, more, hmore, hderives⟩ :=
    leadsOn_of_outer hoffer h (.inr hvalid) (fun t ht hword => h.extends_word more ht hword)
      insertion hmem
  rw [Suggestion.completedLine, hfrom, Text.takeWidth_width_append, List.append_assoc, hwords]
  refine ⟨?_, lineOf more, ?_⟩
  · refine (h.quotes.of_settled h.settled).append_words h.settled hplain ?_
    rw [← hwords]
    simpa using quoteless_of_mem hoffer hmem
  · rw [List.append_assoc, ← lineOf_append, Query.isValid_ofList_iff,
      map_text_scan_append h.settled, scan_lineOf (List.forall_mem_append.mpr ⟨hplain, hmore⟩),
      ← List.append_assoc]
    exact hderives

/-- Within a quoted run, choosing makes the run longer. -/
theorem continuable_of_open (hoffer : offer.Usable) {ps : List (List Char)}
    (hps : ∀ p ∈ ps, ' ' ∉ p) (hopen : openAfter false ps = true) (hline : line = Text.ended ' ' ps)
    (h : Continuable days line) (hmem : insertion ∈ (ofLine offer false line).insertions) :
    Continuable days (Suggestion.completedLine line (ofLine offer false line) insertion) := by
  obtain ⟨front, typed, hsplit, ⟨added, hadded⟩, hcompleted⟩ :=
    (continues_ofLine_of_check (hoffer.table_eq ▸ builtin_sound) false line).exists_completedLine
      hmem
  -- The run that is open takes all of the insertion, since no quote closes it there.
  have hquote : '"' ∉ added := by
    have hnone := quoteless_of_mem hoffer hmem
    rw [← hadded] at hnone
    exact fun hin => hnone (List.mem_append_right typed hin)
  have hlonger : front ++ insertion.toList ++ [' '] = line ++ (added ++ [' ']) := by
    rw [hsplit, ← hadded]
    simp only [List.append_assoc]
  obtain ⟨more, hvalid⟩ := h.viable
  rw [hcompleted, hlonger]
  subst hline
  refine ⟨h.quotes.append_open hps hopen hquote, more, ?_⟩
  rw [List.append_assoc]
  exact Query.isValid_of_open hps hopen hquote hvalid

/-- Choosing a candidate keeps a line continuable. -/
theorem Continuable.completedLine (h : Continuable days line) (hoffer : offer.Usable)
    (hmem : insertion ∈ (ofLine offer false line).insertions) :
    Continuable days (Suggestion.completedLine line (ofLine offer false line) insertion) := by
  rcases exists_unfinished line with
    ⟨front, typed, rfl, hsettled, hunfinished⟩ | ⟨ps, hps, hline, hopen⟩
  · have htyping : Typing front typed := ⟨hsettled, hunfinished, h.quotes⟩
    obtain ⟨more, hvalid⟩ := h.viable
    exact htyping.continuable hoffer hvalid hmem
  · exact continuable_of_open hoffer hps hopen hline h hmem

/-- Completion from the built-in commands leads into no dead end. Where a line can be continued to
a query, every candidate can be chosen. Its insertion takes the place of the unfinished end of the
line, with which it starts, and the line that this leads to can be continued to a query as well. -/
theorem exists_valid_after_choice (hoffer : offer.Usable) (days : Nat) {line : List Char}
    (hquotes : EvenQuotes line)
    (hviable : ∃ more,
      Query.isValid builtin days false (String.ofList (line ++ more)) = true) :
    ∀ index < (ofLine offer false line).panel.innermost.candidates.length, ∀ cursor,
      ∃ front typed insertion, line = front ++ typed ∧
        (ofLine offer false line).insertions[index]? = some insertion ∧
        typed <+: insertion.toList ∧
        ∃ completed, completed = front ++ insertion.toList ++ [' '] ∧
          (Suggestion.after offer false index line (.key .tab)).completed = some completed ∧
          (Suggestion.after offer false cursor line (.select index)).completed = some completed ∧
          ∃ more, Query.isValid builtin days false (String.ofList (completed ++ more)) = true := by
  intro index hindex cursor
  have hcontinuable : Continuable days line := ⟨hquotes, hviable⟩
  have hcontinues := continues_ofLine_of_check (hoffer.table_eq ▸ builtin_sound) false line
  rw [← hcontinues.parallel] at hindex
  have hget := List.getElem?_eq_getElem hindex
  have hmem := List.mem_of_getElem? hget
  obtain ⟨front, typed, hline, hstarts, hcompleted⟩ := hcontinues.exists_completedLine hmem
  have hinsert := Suggestion.completed_insert hget
  exact ⟨front, typed, _, hline, hget, hstarts, _, hcompleted, hinsert, hinsert,
    (hcontinuable.completedLine hoffer hmem).viable⟩

def twoRows : Offer := ⟨builtin, ["a", "b"], ["2024-01-01"]⟩

theorem exists_valid_after_second_row :
    (Suggestion.after twoRows false 1 "compare dataset min `a` max `".toList
        (.key .tab)).completed = some "compare dataset min `a` max `b` ".toList ∧
      ∃ more, Query.isValid builtin 3 false
        (String.ofList ("compare dataset min `a` max `b` ".toList ++ more)) = true := by
  have hoffer : twoRows.Usable := ⟨rfl, by decide, by decide⟩
  have hquotes : EvenQuotes "compare dataset min `a` max `".toList := by
    unfold EvenQuotes
    decide
  have hvalid : Query.isValid builtin 3 false
      (String.ofList ("compare dataset min `a` max `".toList ++ "b`".toList)) = true := by
    decide +kernel
  have hnest : step twoRows false "compare dataset min `a` max `".toList =
      .nest (described (titled "compare" false) ⟨"compare", 0⟩ builtin.commands[9] 2 true)
        (some ⟨"max", 24⟩) :=
    rfl
  have hsub : subLine "compare dataset min `a` max `".toList (some ⟨"max", 24⟩) =
      "max `".toList := by
    decide
  have hrow : step twoRows true "max `".toList =
      .done (ofValues (described (titled "max" true) ⟨"max", 0⟩ builtin.commands[4] 0 false)
        ⟨1, 4⟩ ["`a`", "`b`"]) :=
    rfl
  have hline := ofLine_nest hnest
  rw [hsub, ofLine_done hrow] at hline
  have hcount : 1 < (ofLine twoRows false
      "compare dataset min `a` max `".toList).panel.innermost.candidates.length := by
    rw [hline]
    decide
  have hget : (ofLine twoRows false "compare dataset min `a` max `".toList).insertions[1]? =
      some "`b`" := by
    rw [hline]
    rfl
  have hchosen : Suggestion.completedLine "compare dataset min `a` max `".toList
      (ofLine twoRows false "compare dataset min `a` max `".toList) "`b`" =
        "compare dataset min `a` max `b` ".toList := by
    rw [hline]
    decide
  have hinsert := Suggestion.completed_insert hget
  obtain ⟨_, _, _, -, -, -, completed, -, htab, -, hmore⟩ :=
    exists_valid_after_choice hoffer 3 hquotes ⟨_, hvalid⟩ 1 hcount 0
  obtain rfl : "compare dataset min `a` max `b` ".toList = completed := by
    rw [← hchosen]
    exact Option.some.inj (hinsert.symm.trans htab)
  exact ⟨htab, hmore⟩

/-! Many choices -/

def Completes (offer : Offer) (line completed : List Char) : Prop :=
  ∃ cursor event, (Suggestion.after offer false cursor line event).completed = some completed

/-- Only the choice of a candidate changes the line. -/
theorem Completes.exists_insertion {completed : List Char} (h : Completes offer line completed) :
    ∃ insertion ∈ (ofLine offer false line).insertions,
      completed = Suggestion.completedLine line (ofLine offer false line) insertion := by
  obtain ⟨cursor, event, hafter⟩ := h
  rcases Suggestion.after_cases offer false cursor line event with
    ⟨_, _, _, _, hnone⟩ | ⟨_, index, _, hshown⟩ | ⟨index, _, hinsert⟩
  · rw [hnone] at hafter
    cases hafter
  · rw [hshown] at hafter
    cases hafter
  · rcases Suggestion.insert_cases offer false line index with
      ⟨insertion, hget, hinserted⟩ | ⟨_, hshown⟩
    · rw [hinsert, hinserted] at hafter
      exact ⟨insertion, List.mem_of_getElem? hget, (Option.some.inj hafter).symm⟩
    · rw [hinsert, hshown] at hafter
      cases hafter

/-- However many candidates are chosen one after the other, the line can be continued to a
query. -/
theorem Continuable.of_completes (h : Continuable days line) (hoffer : offer.Usable)
    {completed : List Char} (hrun : Relation.ReflTransGen (Completes offer) line completed) :
    Continuable days completed := by
  induction hrun with
  | refl => exact h
  | tail _ hstep ih =>
    obtain ⟨insertion, hmem, rfl⟩ := hstep.exists_insertion
    exact ih.completedLine hoffer hmem

end Completion

end Almanac
