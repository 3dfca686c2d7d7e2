import Almanac.Proofs.Completion.Steps
import Almanac.Proofs.Query.OpenQuote
import Mathlib.Algebra.BigOperators.Ring.List

/-!
Lines in which a token is being typed. Such a line is a settled front, the tokens of which are
finished, and what is typed behind it. The finished tokens alone decide what is completed: their
number is the position among the parameters, and they say where a sub-query begins. What is typed
only selects among the values that are offered.
-/

namespace Almanac

namespace Token

/-- Every token of the line has as many double quotes as two halves have. -/
def EvenQuotes (line : List Char) : Prop := ∀ t ∈ scan line, Even (t.text.toList.count '"')

theorem hasOpenQuote_of_even {line : List Char} (h : EvenQuotes line) :
    hasOpenQuote line = false := by
  have heven : 2 ∣ line.count '"' := by
    rw [← sum_count_scan (by decide)]
    refine List.dvd_sum fun n hn => ?_
    obtain ⟨t, ht, rfl⟩ := List.mem_map.mp hn
    exact even_iff_two_dvd.mp (h t ht)
  simpa [hasOpenQuote] using Nat.mod_eq_zero_of_dvd heven

def Unfinished (typed : List Char) : Prop :=
  typed = [] ∨ scan typed = [⟨String.ofList typed, 0⟩] ∧ endsWithSeparator typed = false

def pending (front typed : List Char) : List Token :=
  (scan typed).map (·.shift (Text.width front))

theorem pending_nil (front : List Char) : pending front [] = [] := rfl

/-- A line ends in its last token, or where a new one may start, or within a quoted run. -/
theorem exists_unfinished (line : List Char) :
    (∃ front typed, line = front ++ typed ∧ Settled front ∧ Unfinished typed) ∨
      ∃ ps, (∀ p ∈ ps, ' ' ∉ p) ∧ line = Text.ended ' ' ps ∧ openAfter false ps = true := by
  obtain ⟨init, last, hpieces⟩ :=
    (List.eq_nil_or_concat (Text.pieces (· = ' ') line)).resolve_left (Text.pieces_ne_nil _ _)
  rw [List.concat_eq_append] at hpieces
  have hline := Text.join_pieces ' ' line
  rw [hpieces, Text.join_append_cons, Text.join] at hline
  have hblanks : ∀ p ∈ init ++ [last], ' ' ∉ p :=
    fun p hp => not_mem_of_mem_pieces (hpieces ▸ hp)
  have hinit : ∀ p ∈ init, ' ' ∉ p := fun p hp => hblanks p (List.mem_append_left _ hp)
  by_cases hlast : last = []
  · rw [hlast, List.append_nil] at hline
    cases hopen : openAfter false init with
    | false =>
      exact .inl ⟨line, [], (List.append_nil line).symm, ⟨init, hinit, hline.symm, hopen⟩, .inl rfl⟩
    | true => exact .inr ⟨init, hinit, hline.symm, hopen⟩
  · have hsep : endsWithSeparator line = false := by
      rw [endsWithSeparator, ← hline, List.getLast?_append_of_ne_nil _ hlast,
        decide_eq_false_iff_not]
      exact fun hblank => hblanks last (by simp) (List.mem_of_getLast? hblank)
    have hne : scan line ≠ [] := by
      intro hnone
      rw [scan, hpieces] at hnone
      exact hlast (eq_nil_of_ofPieces_eq_nil hnone last (by simp))
    obtain ⟨xs, t, hscan⟩ := (List.eq_nil_or_concat (scan line)).resolve_left hne
    obtain ⟨front, hcut⟩ := exists_lastCut (hscan.trans (List.concat_eq_append ..)) hsep
    have hfront : line = front ++ t.text.toList := by rw [hcut.line_eq, List.append_nil]
    refine .inl ⟨front, t.text.toList, hfront, hcut.settled, .inr ⟨?_, ?_⟩⟩
    · rw [hcut.scan_text, String.ofList_toList]
    · have htext : t.text.toList ≠ [] := by
        intro hnil
        have hnone := hcut.scan_text
        rw [hnil] at hnone
        cases hnone
      rw [hfront, endsWithSeparator, List.getLast?_append_of_ne_nil _ htext] at hsep
      exact hsep

theorem Settled.endsWithSeparator {front : List Char} (h : Settled front) (hne : front ≠ []) :
    endsWithSeparator front = true := by
  obtain ⟨ps, -, rfl, -⟩ := h
  cases ps using List.reverseRecOn with
  | nil => exact absurd rfl hne
  | append_singleton ps p =>
    simp [Almanac.endsWithSeparator, Text.ended]

/-- A line that does not end with a blank ends with its last token. -/
theorem exists_lastText {line : List Char} {c : Char} (hlast : line.getLast? = some c)
    (hc : c ≠ ' ') : ∃ before last, (scan line).map text = before ++ [last] ∧
      last.toList.getLast? = some c := by
  rcases exists_unfinished line with ⟨front, typed, rfl, hfront, htyped⟩ | ⟨ps, -, rfl, hopen⟩
  · rcases htyped with rfl | ⟨htoken, -⟩
    · rw [List.append_nil] at hlast
      have hne : front ≠ [] := by
        rintro rfl
        cases hlast
      have hsep := hfront.endsWithSeparator hne
      rw [endsWithSeparator, hlast] at hsep
      simp [hc] at hsep
    · have hne : typed ≠ [] := by
        rintro rfl
        cases htoken
      refine ⟨(scan front).map text, String.ofList typed, ?_, ?_⟩
      · rw [map_text_scan_append hfront, htoken]
        rfl
      · rwa [List.getLast?_append_of_ne_nil _ hne, ← String.toList_ofList (l := typed)] at hlast
  · obtain ⟨init, p, rfl⟩ := (List.eq_nil_or_concat ps).resolve_left fun hnil => by
      rw [hnil] at hopen
      cases hopen
    simp [Text.ended, hc.symm] at hlast

/-- What is left of a settled line behind a settled part of it is settled. -/
theorem Settled.of_append {front back : List Char} (hfront : Settled front)
    (h : Settled (front ++ back)) : Settled back := by
  obtain ⟨ps, hps, rfl, hclosed⟩ := hfront
  obtain ⟨qs, hqs, hline, hall⟩ := h
  have hpieces : ps ++ Text.pieces (· = ' ') back = qs ++ [[]] := by
    rw [← Text.pieces_ended_append hps, hline]
    have hended := Text.pieces_ended_append hqs []
    rwa [List.append_nil] at hended
  obtain ⟨rs, hrs⟩ : ∃ rs, Text.pieces (· = ' ') back = rs ++ [[]] := by
    rcases List.append_eq_append_iff.mp hpieces with ⟨rs, -, hback⟩ | ⟨rs, -, hnil⟩
    · exact ⟨rs, hback⟩
    · have hne := Text.pieces_ne_nil (· = ' ') back
      obtain ⟨rfl, hback⟩ | ⟨hrs, hback⟩ := List.append_eq_singleton_iff.mp hnil.symm
      · exact ⟨[], hback⟩
      · exact absurd hback hne
  have hsplit : ps ++ rs = qs := by
    rw [hrs, ← List.append_assoc] at hpieces
    exact List.append_cancel_right hpieces
  refine ⟨rs, ?_, ?_, ?_⟩
  · intro p hp
    exact hqs p (hsplit ▸ List.mem_append_right ps hp)
  · rw [← hsplit, Text.ended_append] at hline
    exact List.append_cancel_left hline
  · rw [← hsplit, openAfter_append, hclosed] at hall
    exact hall

end Token

namespace Completion

open CommandTable Token

/-- A token is being typed behind a settled front, or is about to be. -/
structure Typing (front typed : List Char) : Prop where
  settled : Settled front
  unfinished : Unfinished typed
  quotes : EvenQuotes (front ++ typed)

variable {offer : Offer} {nested : Bool} {front typed : List Char} {head : Token}
  {finished : List Token} {c : Command}

namespace Typing

theorem scan_eq (h : Typing front typed) :
    scan (front ++ typed) = scan front ++ pending front typed :=
  scan_append h.settled typed

/-- Either nothing of a new token is typed, or the line ends with what is typed of it. -/
theorem cases (h : Typing front typed) :
    (typed = [] ∧ pending front typed = [] ∧
        (front = [] ∨ endsWithSeparator (front ++ typed) = true)) ∨
      (pending front typed = [⟨String.ofList typed, Text.width front⟩] ∧
        endsWithSeparator (front ++ typed) = false) := by
  rcases h.unfinished with rfl | ⟨htoken, hopen⟩
  · refine .inl ⟨rfl, rfl, ?_⟩
    rw [List.append_nil]
    by_cases hne : front = []
    · exact .inl hne
    · exact .inr (h.settled.endsWithSeparator hne)
  · have hne : typed ≠ [] := by
      rintro rfl
      cases htoken
    refine .inr ⟨?_, ?_⟩
    · rw [pending, htoken]
      rfl
    · rw [endsWithSeparator, List.getLast?_append_of_ne_nil front hne]
      exact hopen

/-- A line with a finished token ends with a separator unless a token is being typed. -/
theorem cases_of_finished (h : Typing front typed) (hscan : scan front = head :: finished) :
    (typed = [] ∧ pending front typed = [] ∧ endsWithSeparator (front ++ typed) = true) ∨
      (pending front typed = [⟨String.ofList typed, Text.width front⟩] ∧
        endsWithSeparator (front ++ typed) = false) := by
  rcases h.cases with ⟨htyped, hpending, rfl | hsep⟩ | htoken
  · cases hscan
  · exact .inl ⟨htyped, hpending, hsep⟩
  · exact .inr htoken

theorem place_eq (h : Typing front typed) (hscan : scan front = head :: finished) :
    place (front ++ typed) ((finished ++ pending front typed).getLast?.getD head) =
      ⟨Text.width typed, Text.width front⟩ := by
  rcases h.cases_of_finished hscan with ⟨rfl, hpending, hsep⟩ | ⟨hpending, hopen⟩
  · rw [place, if_pos hsep, List.append_nil]
    rfl
  · simp [place, hopen, hpending, Text.byteLength]

theorem entered_eq (h : Typing front typed) :
    entered (finished ++ pending front typed) finished.length = String.ofList typed := by
  rcases h.cases with ⟨rfl, hpending, -⟩ | ⟨hpending, -⟩
  · simp [entered, hpending]
  · simp [entered, hpending]

/-- The finished tokens but for the command word are counted. -/
theorem position_eq (h : Typing front typed) (hscan : scan front = head :: finished) :
    (head :: (finished ++ pending front typed)).length -
        (if endsWithSeparator (front ++ typed) && !hasOpenQuote (front ++ typed) then 1 else 2) =
      finished.length := by
  rw [hasOpenQuote_of_even h.quotes]
  rcases h.cases_of_finished hscan with ⟨-, hpending, hsep⟩ | ⟨hpending, hopen⟩
  · simp [hpending, hsep]
  · simp [hpending, hopen]

end Typing

/-! What the finished tokens lead to -/

theorem step_of_start (h : Typing front typed) (hscan : scan front = []) :
    step offer nested (front ++ typed) =
      .done (ofCommands offer nested (String.ofList typed) (Text.width front)) := by
  have hall := h.scan_eq
  rw [hscan, List.nil_append] at hall
  rcases h.cases with ⟨rfl, hpending, -⟩ | ⟨hpending, hopen⟩
  · rw [hpending] at hall
    rw [step_of_nil hall, List.append_nil]
  · rw [hpending] at hall
    exact step_of_word hall hopen

theorem step_of_finished (h : Typing front typed) (hscan : scan front = head :: finished) :
    step offer nested (front ++ typed) =
      ofHead offer nested (front ++ typed) head (finished ++ pending front typed) := by
  refine step_of_head (by rw [h.scan_eq, hscan, List.cons_append]) ?_
  rcases h.cases_of_finished hscan with ⟨-, -, hsep⟩ | ⟨hpending, -⟩
  · exact .inr hsep
  · exact .inl (by simp [hpending])

/-- The overload is being chosen as long as only the command word is finished. -/
theorem typingVariant_eq (h : Typing front typed) (hscan : scan front = head :: finished) :
    typingVariant (front ++ typed) (finished ++ pending front typed) = finished.isEmpty := by
  rcases h.cases_of_finished hscan with ⟨-, hpending, hsep⟩ | ⟨hpending, hopen⟩
  · simp [typingVariant, hpending, hsep]
  · cases finished <;> simp [typingVariant, hpending, hopen]

theorem exists_cons_cons {overloads : List Command} (h : 2 ≤ overloads.length) :
    ∃ first second more, overloads = first :: second :: more := by
  match overloads, h with
  | first :: second :: more, _ => exact ⟨first, second, more, rfl⟩

theorem step_of_overloads (h : Typing front typed) (hscan : scan front = [head])
    (hmany : 2 ≤ (offer.table.visibleOverloads head.text nested).length) :
    step offer nested (front ++ typed) =
      .done (ofVariants head (offer.table.visibleOverloads head.text nested)
        (titled head.text nested) (String.ofList typed) (Text.width front)
        (Text.width (front ++ typed))) := by
  have hvariant : typingVariant (front ++ typed) (pending front typed) = true :=
    typingVariant_eq h hscan
  rw [step_of_finished h hscan, List.nil_append, ofHead_of_choosing hmany hvariant]
  rcases h.cases_of_finished hscan with ⟨rfl, hpending, -⟩ | ⟨hpending, -⟩
  · rw [hpending, List.append_nil]
    rfl
  · rw [hpending]
    rfl

/-- Behind the word of an overloaded command, the panel is about the parameter that its overloads
have in common, and the words that tell them apart replace what is typed. -/
theorem ofLine_of_keyed (htable : offer.table = builtin) (h : Typing front typed)
    (hscan : scan front = [head]) (hmem : c ∈ builtin.commands) (hname : c.name = head.text)
    (hkeyed : c.discriminant ≠ none) :
    ∃ completion, ofLine offer false (front ++ typed) = completion ∧
      completion.panel.nested = none ∧
      completion.panel.header = some ("Query " ++ c.name ++ " documentation:") ∧
      completion.panel.signature =
        some ⟨c.name, [.ofParam (.leading "location type" "coord") true], true⟩ ∧
      completion.insertions =
        ((builtin.visibleOverloads head.text false).filterMap Command.discriminant).filter
          (extends? (String.ofList typed)) ∧
      completion.replaceFrom = Text.width front := by
  have hlead := (leading_of_discriminant c hmem hkeyed).1
  have hmany := (overload_of_discriminant c hmem hkeyed).2.1
  rw [hname] at hlead hmany
  refine ⟨_, ofLine_done (step_of_overloads h hscan (htable ▸ hmany)), ?_⟩
  rw [htable, ofVariants, hlead, hname]
  exact ⟨rfl, rfl, rfl, rfl, rfl⟩

/-- Once a built-in command is selected, its arguments are completed. -/
theorem step_of_command (htable : offer.table = builtin) (h : Typing front typed)
    (hscan : scan front = head :: finished)
    (hresolve : builtin.resolve head.text (finished.head?.map Token.text) nested = some c) :
    step offer nested (front ++ typed) =
      ofArguments offer (front ++ typed) head (finished ++ pending front typed) c
        (titled head.text nested) := by
  obtain ⟨hmem, hanswers⟩ := resolve_builtin_iff.mp hresolve
  obtain ⟨hname, hvisible, hnext⟩ := Command.answers_iff.mp hanswers
  rw [step_of_finished h hscan, ofHead_of_typed]
  by_cases hbare : c.discriminant = none
  · rw [typedCommand?, htable, ← hname, visibleOverloads_of_bare c hmem hbare nested hvisible]
  · obtain ⟨houter, hmany, hfound⟩ := overload_of_discriminant c hmem hbare
    obtain rfl : nested = false := by simpa [Command.visibleIn, houter] using hvisible
    have hlead := hnext.resolve_left hbare
    obtain ⟨t, rest, rfl⟩ : ∃ t rest, finished = t :: rest := by
      cases finished with
      | nil => exact absurd hlead hbare
      | cons t rest => exact ⟨t, rest, rfl⟩
    have hvariant : typingVariant (front ++ typed) (t :: rest ++ pending front typed) = false :=
      typingVariant_eq h hscan
    rw [hname] at hmany hfound
    rw [hlead] at hfound
    obtain ⟨first, second, more, hoverloads⟩ := exists_cons_cons hmany
    rw [hoverloads] at hfound
    simp only [typedCommand?, htable, hoverloads, hvariant, Bool.false_eq_true, if_false]
    exact hfound

/-! Arguments -/

theorem currentParam_of_typing (hcheck : c.check = .ok ()) (h : Typing front typed)
    (hscan : scan front = head :: finished) (second : Bool) :
    currentParam (front ++ typed) (head :: (finished ++ pending front typed)) c second =
      if c.subQuerySlots = 2 ∧ c.positional.length ≤ finished.length then slot c second
      else finished.length := by
  simp only [currentParam, h.position_eq hscan]
  split
  · rename_i htwo
    simp [Command.firstSubQuery?_eq hcheck (Command.subQueryParams_ne_nil htwo), htwo]
  · simp [*]

/-- The position of an argument that is no sub-query is the number of finished arguments. -/
theorem currentParam_of_own (hcheck : c.check = .ok ()) (h : Typing front typed)
    (hscan : scan front = head :: finished)
    (hown : finished.length < c.positional.length ∨ c.subQueryParams = []) (second : Bool) :
    currentParam (front ++ typed) (head :: (finished ++ pending front typed)) c second =
      finished.length := by
  rw [currentParam_of_typing hcheck h hscan, if_neg]
  intro htwo
  rcases hown with hlt | hnil
  · omega
  · exact Command.subQueryParams_ne_nil htwo.1 hnil

def valuesFor (offer : Offer) (typed : String) : Option ParamKind → List String
  | some .row => rowsFor offer.rows typed
  | some .date => offer.dates.filter (extends? typed)
  | _ => []

theorem valuesFor_eq_nil {kind : ParamKind} {typed : String} (hrow : kind ≠ .row)
    (hdate : kind ≠ .date) : valuesFor offer typed (some kind) = [] := by
  cases kind with
  | row => exact absurd rfl hrow
  | date => exact absurd rfl hdate
  | _ => rfl

/-- Where no sub-query is typed, the panel is about the parameter at the position, and the values
for it replace what is typed. -/
theorem ofLine_of_own (htable : offer.table = builtin) (h : Typing front typed)
    (hscan : scan front = head :: finished)
    (hresolve : builtin.resolve head.text (finished.head?.map Token.text) nested = some c)
    (hown : finished.length < c.positional.length ∨ c.subQueryParams = []) :
    ∃ completion second, ofLine offer nested (front ++ typed) = completion ∧
      completion.panel.nested = none ∧
      completion.panel.header = some ("Query " ++ c.name ++ " documentation:") ∧
      completion.panel.signature = some (signature head c finished.length second) ∧
      completion.insertions =
        valuesFor offer (String.ofList typed) (c.params[finished.length]?.map Param.kind) ∧
      completion.replaceFrom = Text.width front := by
  obtain ⟨hmem, hanswers⟩ := resolve_builtin_iff.mp hresolve
  have hcheck := check_of_mem hmem
  have hheader : (titled head.text nested).header =
      some ("Query " ++ c.name ++ " documentation:") := by
    rw [(Command.answers_iff.mp hanswers).1]
    rfl
  have hcurrent := currentParam_of_own hcheck h hscan hown
  have hstep := step_of_command htable h hscan hresolve
  rcases ofArguments_cases offer (titled head.text nested) rfl (hcurrent _) with
    ⟨p, hp, hrow, hdone⟩ | ⟨p, hp, hdate, hdone⟩ | ⟨hslot, -⟩ | ⟨message, hkinds, -, hdone⟩
  · rw [h.entered_eq, h.place_eq hscan] at hdone
    exact ⟨_, _, ofLine_done (hstep.trans hdone), rfl, hheader, rfl,
      by simp [hp, hrow, valuesFor, ofValues], rfl⟩
  · rw [h.entered_eq, h.place_eq hscan] at hdone
    exact ⟨_, _, ofLine_done (hstep.trans hdone), rfl, hheader, rfl,
      by simp [hp, hdate, valuesFor, ofValues], rfl⟩
  · rcases hslot with ⟨p, hp, hslot⟩ | ⟨hnone, htail⟩
    · exact absurd hslot (Command.kind_ne_of_own hcheck hown hp)
    · rw [Command.hasSubQueryTail_eq hcheck] at htail
      rcases hown with hlt | hnil
      · rw [Command.params_eq_append hcheck, List.getElem?_append_left hlt,
          List.getElem?_eq_getElem hlt] at hnone
        cases hnone
      · simp [hnil] at htail
  · rw [h.place_eq hscan] at hdone
    refine ⟨_, _, ofLine_done (hstep.trans hdone), rfl, hheader, rfl, ?_, rfl⟩
    cases hp : c.params[finished.length]? with
    | none => rfl
    | some p =>
      obtain ⟨hrow, hdate, -⟩ := hkinds p hp
      exact (valuesFor_eq_nil hrow hdate).symm

/-! Sub-queries -/

/-- Behind its own arguments, a sub-query of the command is completed. -/
theorem ofArguments_of_reached (hcheck : c.check = .ok ()) (h : Typing front typed)
    (hscan : scan front = head :: finished) (hslots : c.subQueryParams ≠ [])
    (hreached : c.positional.length ≤ finished.length) (panel : Panel) :
    ∃ outer, ofArguments offer (front ++ typed) head (finished ++ pending front typed) c panel =
      .nest outer (subQueryToken? offer.table (finished ++ pending front typed) c
        (secondBegun offer.table (head :: (finished ++ pending front typed)))) := by
  have hcurrent := currentParam_of_typing hcheck h hscan
    (secondBegun offer.table (head :: (finished ++ pending front typed)))
  generalize hsecond : secondBegun offer.table (head :: (finished ++ pending front typed)) = second
    at hcurrent ⊢
  generalize hposition :
    currentParam (front ++ typed) (head :: (finished ++ pending front typed)) c second = current
    at hcurrent
  have hle : c.positional.length ≤ current := by
    rw [hcurrent]
    split
    · rename_i htwo
      rw [slot_eq htwo.1]
      exact Nat.le_add_right _ _
    · exact hreached
  rcases ofArguments_cases offer panel hsecond hposition with
    ⟨p, hp, hrow, -⟩ | ⟨p, hp, hdate, -⟩ | ⟨-, hnest⟩ | ⟨message, hkinds, htail, -⟩
  · simp [Command.kind_of_positional_le hcheck hle hp] at hrow
  · simp [Command.kind_of_positional_le hcheck hle hp] at hdate
  · exact ⟨_, hnest⟩
  · cases hp : c.params[current]? with
    | none =>
      have hnil := htail hp
      rw [Command.hasSubQueryTail_eq hcheck] at hnil
      exact absurd (by simpa using hnil) hslots
    | some p => exact absurd (Command.kind_of_positional_le hcheck hle hp) (hkinds p hp).2.2

theorem Typing.of_append {pre sub : List Char} (hpre : Settled pre)
    (h : Typing (pre ++ sub) typed) : Typing sub typed := by
  refine ⟨hpre.of_append h.settled, h.unfinished, ?_⟩
  intro t ht
  refine h.quotes (t.shift (Text.width pre)) ?_
  rw [List.append_assoc, scan_append hpre]
  exact List.mem_append_right _ (List.mem_map_of_mem ht)

theorem subLine_of_start {pre text : List Char} {t : Token} (hstart : t.start = Text.width pre) :
    subLine (pre ++ text) (some t) = text := by
  rw [subLine, Token.suffix, hstart, Text.dropWidth_width_append]

/-- A sub-query that begins with the first of the tokens from some point on, or that is about to
begin there, has a front of its own. -/
theorem Typing.exists_sub (h : Typing front typed) (xs rest : List Token)
    (hscan : scan front = xs ++ rest) :
    ∃ pre sub, front = pre ++ sub ∧ Typing sub typed ∧
      (scan sub).map (·.shift (Text.width pre)) = rest ∧
      subOffset (front ++ typed) (rest ++ pending front typed).head? = Text.width pre ∧
      subLine (front ++ typed) (rest ++ pending front typed).head? = sub ++ typed := by
  cases rest with
  | nil =>
    have hfront : Typing (front ++ []) typed := (List.append_nil front).symm ▸ h
    refine ⟨front, [], (List.append_nil front).symm, hfront.of_append h.settled, rfl, ?_⟩
    rcases h.cases with ⟨rfl, hpending, -⟩ | ⟨hpending, -⟩
    · rw [hpending, List.append_nil]
      exact ⟨rfl, rfl⟩
    · rw [hpending]
      exact ⟨rfl, subLine_of_start rfl⟩
  | cons t rest =>
    obtain ⟨pre, back, hcut⟩ := exists_cut hscan
    have hfront : front = pre ++ (t.text.toList ++ back) := by
      rw [hcut.line_eq, List.append_assoc]
    refine ⟨pre, t.text.toList ++ back, hfront, (hfront ▸ h).of_append hcut.settled, ?_,
      hcut.start_eq.symm, ?_⟩
    · rw [hcut.start_eq, hcut.rest]
    · rw [hfront, List.append_assoc]
      exact subLine_of_start hcut.start_eq.symm

def OneCommand (tokens : List Token) : Prop :=
  ∃ t rest, tokens = t :: rest ∧ builtin.isCommandName t.text = true ∧
    ∀ u ∈ rest, builtin.isCommandName u.text = false

theorem oneCommand_of_sub {days : Nat} {tokens : List Token}
    (h : Grammar.Sub days (tokens.map Token.text)) : OneCommand tokens := by
  obtain ⟨word, args, htexts, hword, hargs⟩ := h.one_command
  obtain ⟨t, rest, rfl, rfl, rfl⟩ := List.map_eq_cons_iff.mp htexts
  exact ⟨t, rest, rfl, hword, fun u hu => hargs u.text (List.mem_map_of_mem hu)⟩

theorem OneCommand.ne_nil {tokens : List Token} (h : OneCommand tokens) : tokens ≠ [] := by
  obtain ⟨t, rest, rfl, -⟩ := h
  simp

theorem OneCommand.of_append {t : Token} {xs ys : List Token}
    (h : OneCommand (t :: (xs ++ ys))) : OneCommand (t :: xs) := by
  obtain ⟨_, _, heq, ht, hrest⟩ := h
  obtain ⟨rfl, rfl⟩ := List.cons.inj heq
  exact ⟨t, xs, rfl, ht, fun u hu => hrest u (List.mem_append_left ys hu)⟩

theorem OneCommand.countP_eq {tokens : List Token} (h : OneCommand tokens) :
    tokens.countP (fun t => builtin.isCommandName t.text) = 1 := by
  obtain ⟨t, rest, rfl, ht, hrest⟩ := h
  have hnone : rest.countP (fun t => builtin.isCommandName t.text) = 0 := by
    simpa [List.countP_eq_zero] using hrest
  simp [ht, hnone]

/-- Two more command words behind those of a comparison are the words of both sub-queries. -/
theorem secondBegun_eq {lead : Token} (hhead : builtin.isCommandName head.text = true)
    (hlead : lead.text = "dataset") (tokens : List Token) :
    secondBegun builtin (head :: lead :: tokens) =
      decide (2 ≤ tokens.countP fun t => builtin.isCommandName t.text) := by
  have hplain : builtin.isCommandName lead.text = false := by
    rw [hlead]
    decide
  rw [secondBegun, decide_eq_decide]
  simp only [List.countP_cons, hhead, hplain, if_true, Bool.false_eq_true, if_false]
  omega

/-- Behind the arguments of the command a sub-query begins, unless it is the second one. -/
theorem subQueryToken?_of_first {own rest : List Token} {second : Bool}
    (hown : own.length = c.positional.length)
    (hslots : c.subQuerySlots = 1 ∨ c.subQuerySlots = 2 ∧ second = false) :
    subQueryToken? builtin (own ++ rest) c second = rest.head? := by
  have hopening : opening c - 1 = own.length := by
    rw [opening_eq (hslots.imp_right And.left), hown, Nat.add_sub_cancel]
  rw [subQueryToken?, if_neg, hopening]
  · rw [List.getElem?_append_right (Nat.le_refl _), Nat.sub_self, List.head?_eq_getElem?]
  · rcases hslots with hone | ⟨-, rfl⟩
    · simp [hone]
    · simp

/-- The second sub-query begins at the last command word. -/
theorem subQueryToken?_of_second {skipped rest : List Token} (htwo : c.subQuerySlots = 2)
    (hone : OneCommand rest) :
    subQueryToken? builtin (skipped ++ rest) c true = rest.head? := by
  obtain ⟨t, after, rfl, ht, hafter⟩ := hone
  have hwords : (t :: after).filter (fun u => builtin.isCommandName u.text) = [t] := by
    simpa [List.filter_cons, ht, List.filter_eq_nil_iff] using hafter
  rw [subQueryToken?, if_pos (by simp [htwo]), List.filter_append, hwords, List.getLast?_concat]
  rfl

section Pair

variable {lead : Token}

/-- With no more than one command word behind those of a comparison, its first sub-query begins
right behind them. -/
theorem subQueryToken?_left (hhead : builtin.isCommandName head.text = true)
    (hlead : lead.text = "dataset") (hown : c.positional.length = 1)
    (htwo : c.subQuerySlots = 2) {rest : List Token}
    (hcount : rest.countP (fun t => builtin.isCommandName t.text) ≤ 1) :
    subQueryToken? builtin (lead :: rest) c (secondBegun builtin (head :: lead :: rest)) =
      rest.head? := by
  refine @subQueryToken?_of_first c [lead] rest _ hown.symm (.inr ⟨htwo, ?_⟩)
  rw [secondBegun_eq hhead hlead, decide_eq_false_iff_not]
  omega

/-- Behind a whole sub-query the second one begins with its command word. -/
theorem subQueryToken?_right (hhead : builtin.isCommandName head.text = true)
    (hlead : lead.text = "dataset") (htwo : c.subQuerySlots = 2) {left right : List Token}
    (hleft : OneCommand left) (hright : OneCommand right) :
    subQueryToken? builtin (lead :: (left ++ right)) c
      (secondBegun builtin (head :: lead :: (left ++ right))) = right.head? := by
  have hbegun : secondBegun builtin (head :: lead :: (left ++ right)) = true := by
    rw [secondBegun_eq hhead hlead, List.countP_append, hleft.countP_eq, hright.countP_eq]
    rfl
  rw [hbegun]
  exact @subQueryToken?_of_second c (lead :: left) right htwo hright

end Pair

/-- The completion of a sub-query is put into the panel of its query. -/
theorem exists_around (htable : offer.table = builtin) (h : Typing front typed)
    {skipped rest : List Token} (hscan : scan front = head :: (skipped ++ rest))
    (hresolve : builtin.resolve head.text ((skipped ++ rest).head?.map Token.text) nested = some c)
    (hslots : c.subQueryParams ≠ []) (hreached : c.positional.length ≤ (skipped ++ rest).length)
    (hstart : subQueryToken? builtin (skipped ++ (rest ++ pending front typed)) c
      (secondBegun builtin (head :: (skipped ++ (rest ++ pending front typed)))) =
        (rest ++ pending front typed).head?) :
    ∃ outer pre sub, front = pre ++ sub ∧ Typing sub typed ∧
      (scan sub).map (·.shift (Text.width pre)) = rest ∧
      ofLine offer nested (front ++ typed) =
        around outer (Text.width pre) (ofLine offer true (sub ++ typed)) := by
  have hcheck := check_of_mem (resolve_builtin_iff.mp hresolve).1
  obtain ⟨outer, hnest⟩ := @ofArguments_of_reached offer front typed head (skipped ++ rest) c
    hcheck h hscan hslots hreached (titled head.text nested)
  rw [← step_of_command htable h hscan hresolve, htable, List.append_assoc, hstart] at hnest
  obtain ⟨pre, sub, hfront, hsub, hrest, hoffset, hline⟩ :=
    h.exists_sub (head :: skipped) rest hscan
  refine ⟨outer, pre, sub, hfront, hsub, hrest, ?_⟩
  rw [ofLine_nest hnest, hoffset, hline]

end Completion

end Almanac
