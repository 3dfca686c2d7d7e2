import Almanac.Proofs.Completion.Calls

/-!
Blank panels. Where there is nothing to choose, the panel should say why. The list of commands does,
and so does the list of words that tell overloads apart. A list of rows or of dates that comes out
empty does not, and neither does the choice between overloads of which the first takes no arguments.
These are all the lines with a blank panel, and in the panels around a sub-query it is the line of
the sub-query that counts.
-/

namespace Almanac

namespace Panel

/-- The panel has nothing to choose, and it does not say why. -/
structure Blank (panel : Panel) : Prop where
  candidates : panel.candidates = []
  message : panel.message = none

/-- The panel lists commands, or words that tell overloads apart. -/
def ListsWords (panel : Panel) : Prop :=
  panel.header = some "Queries:" ∨ ∃ s ∈ panel.signature, s.truncated = true

/-- The panel has a message exactly if its list comes out empty, and the message says so. -/
def SaysEmpty (panel : Panel) : Prop :=
  panel.message = if panel.candidates = [] then some Completion.nothingFound else none

theorem markAt_eq_nil_iff {index : Nat} {candidates : List Candidate} :
    markAt index candidates = [] ↔ candidates = [] := by
  rw [← List.length_eq_zero_iff, length_markAt, List.length_eq_zero_iff]

theorem blank_select_iff {panel : Panel} (index : Nat) :
    (panel.select index).innermost.Blank ↔ panel.innermost.Blank := by
  rw [innermost_select]
  exact ⟨fun h => ⟨markAt_eq_nil_iff.mp h.candidates, h.message⟩,
    fun h => ⟨markAt_eq_nil_iff.mpr h.candidates, h.message⟩⟩

theorem saysEmpty_select_iff {panel : Panel} (index : Nat) :
    (panel.select index).innermost.SaysEmpty ↔ panel.innermost.SaysEmpty := by
  simp only [innermost_select, SaysEmpty, markAt_eq_nil_iff]

end Panel

/-- No row or no date starts with what is entered for a parameter. -/
def Offer.NoneFits (offer : Offer) (text : String) : ParamKind → Prop
  | .row => ∀ row ∈ offer.rows, ¬ text.toList <+: '`' :: row.toList
  | .date => ∀ date ∈ offer.dates, ¬ text.toList <+: date.toList
  | _ => False

namespace Completion

/-- The lines whose panel is blank: those with a row or a date to come that there is none for, those
with a choice of overloads of which the first has no parameter, and those with such a line for a
sub-query. -/
inductive Silent (offer : Offer) : Bool → List Char → Prop
  | value {nested : Bool} {line : List Char} {head : Token} {tail : List Token} {c : Command}
      {current : Nat} {second : Bool} {p : Param}
      (hat : AtArgument offer nested line head tail c current second)
      (hp : c.params[current]? = some p)
      (hnone : offer.NoneFits (entered tail current) p.kind) : Silent offer nested line
  | overload {nested : Bool} {line : List Char} {head : Token} {tail : List Token}
      {first : Command} (hbegun : Begun line head tail)
      (hmany : 2 ≤ (offer.table.visibleOverloads head.text nested).length)
      (htyping : typingVariant line tail = true)
      (hfirst : (offer.table.visibleOverloads head.text nested).head? = some first)
      (hbare : first.params = []) : Silent offer nested line
  | subQuery {nested : Bool} {line : List Char} {panel : Panel} {start : Option Token}
      (hnest : step offer nested line = .nest panel start)
      (hsub : Silent offer true (subLine line start)) : Silent offer nested line

variable {offer : Offer} {nested : Bool} {line : List Char} {head : Token} {tail : List Token}
  {c : Command} {completion : Completion} {text : String}

theorem rowsFor_eq_nil_iff : rowsFor offer.rows text = [] ↔ offer.NoneFits text .row := by
  simp [rowsFor, Offer.NoneFits, extends?, String.toList_append]

theorem filter_dates_eq_nil_iff :
    offer.dates.filter (extends? text) = [] ↔ offer.NoneFits text .date := by
  simp [Offer.NoneFits, extends?]

/-! Which lines are silent -/

theorem not_silent_of_not_begun (hdone : step offer nested line = .done completion)
    (hnot : ∀ head tail, ¬ Begun line head tail) : ¬ Silent offer nested line := by
  intro h
  cases h with
  | value hat => exact hnot _ _ hat.begun
  | overload hbegun => exact hnot _ _ hbegun
  | subQuery hnest => cases hdone.symm.trans hnest

/-- Where arguments are typed, the parameter and what is entered for it decide. -/
theorem silent_iff_of_argument (hdone : step offer nested line = .done completion)
    {current : Nat} {second : Bool}
    (hat : AtArgument offer nested line head tail c current second) :
    Silent offer nested line ↔
      ∃ p, c.params[current]? = some p ∧ offer.NoneFits (entered tail current) p.kind := by
  constructor
  · intro h
    cases h with
    | value hat' hp hnone =>
      obtain ⟨rfl, rfl, rfl, rfl, rfl⟩ := hat.unique hat'
      exact ⟨_, hp, hnone⟩
    | overload hbegun hmany htyping =>
      obtain ⟨rfl, rfl⟩ := List.cons.inj (hat.begun.scan.symm.trans hbegun.scan)
      cases hat.typed.symm.trans (typedCommand?_of_choosing hmany htyping)
    | subQuery hnest => cases hdone.symm.trans hnest
  · rintro ⟨p, hp, hnone⟩
    exact .value hat hp hnone

/-- Where no arguments are typed, only a choice of overloads can be silent. -/
theorem silent_iff_of_untyped (hdone : step offer nested line = .done completion)
    (hbegun : Begun line head tail)
    (huntyped : typedCommand? offer.table nested line head tail = none) :
    Silent offer nested line ↔
      2 ≤ (offer.table.visibleOverloads head.text nested).length ∧
      typingVariant line tail = true ∧
      ∃ first, (offer.table.visibleOverloads head.text nested).head? = some first ∧
        first.params = [] := by
  constructor
  · intro h
    cases h with
    | value hat =>
      obtain ⟨rfl, rfl⟩ := List.cons.inj (hbegun.scan.symm.trans hat.begun.scan)
      cases huntyped.symm.trans hat.typed
    | overload hbegun' hmany htyping hfirst hbare =>
      obtain ⟨rfl, rfl⟩ := List.cons.inj (hbegun.scan.symm.trans hbegun'.scan)
      exact ⟨hmany, htyping, _, hfirst, hbare⟩
    | subQuery hnest => cases hdone.symm.trans hnest
  · rintro ⟨hmany, htyping, first, hfirst, hbare⟩
    exact .overload hbegun hmany htyping hfirst hbare

/-- Around a sub-query only its own line can be silent. -/
theorem silent_iff_of_nest {panel : Panel} {start : Option Token}
    (hnest : step offer nested line = .nest panel start) :
    Silent offer nested line ↔ Silent offer true (subLine line start) := by
  constructor
  · intro h
    obtain ⟨head, tail, c, current, second, hat, hkind, -, -⟩ := exists_atArgument_of_nest hnest
    cases h with
    | value hat' hp hnone =>
      obtain ⟨rfl, rfl, rfl, rfl, rfl⟩ := hat.unique hat'
      rw [hkind _ hp] at hnone
      exact hnone.elim
    | overload hbegun hmany htyping =>
      obtain ⟨rfl, rfl⟩ := List.cons.inj (hat.begun.scan.symm.trans hbegun.scan)
      cases hat.typed.symm.trans (typedCommand?_of_choosing hmany htyping)
    | subQuery hnest' hsub =>
      obtain ⟨rfl, rfl⟩ := Step.nest.inj (hnest.symm.trans hnest')
      exact hsub
  · exact .subQuery hnest

/-! What a panel says -/

structure Answers (offer : Offer) (nested : Bool) (line : List Char) (completion : Completion) :
    Prop where
  blank_iff : completion.panel.innermost.Blank ↔ Silent offer nested line
  saysEmpty : completion.panel.innermost.ListsWords → completion.panel.innermost.SaysEmpty

theorem answers_of_flat (hnested : completion.panel.nested = none)
    (hblank : completion.panel.Blank ↔ Silent offer nested line)
    (hempty : completion.panel.ListsWords → completion.panel.SaysEmpty) :
    Answers offer nested line completion := by
  rw [← Panel.innermost_of_none hnested] at hblank hempty
  exact ⟨hblank, hempty⟩

/-- The heading of a query is not that of the list of commands. -/
theorem not_listsWords {panel : Panel}
    (hheader : ∀ text ∈ panel.header, ∃ word, text = "Query " ++ word ++ " documentation:")
    (hsignature : ∀ s ∈ panel.signature, s.truncated = false) : ¬ panel.ListsWords := by
  rintro (h | ⟨s, hs, htruncated⟩)
  · obtain ⟨word, hword⟩ := hheader _ h
    have hchars := congrArg String.toList hword
    simp [String.toList_append] at hchars
  · rw [hsignature s hs] at htruncated
    cases htruncated

theorem not_listsWords_described (nested : Bool) (head : Token) (c : Command) (current : Nat)
    (second : Bool) : ¬ (described (titled head.text nested) head c current second).ListsWords :=
  not_listsWords (fun _ h => ⟨_, (Option.some.inj h).symm⟩) fun _ h => Option.some.inj h ▸ rfl

theorem answers_ofCommands (hnot : ¬ Silent offer nested line) (typed : String) (start : Nat) :
    Answers offer nested line (ofCommands offer nested typed start) := by
  refine answers_of_flat rfl (iff_of_false ?_ hnot) fun _ => ?_
  · rintro ⟨hcandidates, hmessage⟩
    simp only [ofCommands, List.map_eq_nil_iff] at hcandidates
    simp [ofCommands, hcandidates] at hmessage
  · simp [Panel.SaysEmpty, ofCommands]

/-- A choice among words is blank only if there is no parameter for them. -/
theorem answers_ofVariants {overloads : List Command} {first : Command}
    (hfirst : overloads.head? = some first)
    (hsilent : Silent offer nested line ↔ first.params = []) (typed : String)
    (start lineEnd : Nat) :
    Answers offer nested line
      (ofVariants head overloads (titled head.text nested) typed start lineEnd) := by
  rw [ofVariants, hfirst, Option.bind_some]
  cases hparams : first.params with
  | nil =>
    refine answers_of_flat rfl (iff_of_true ⟨rfl, rfl⟩ (hsilent.mpr hparams)) fun h => ?_
    exact absurd h (not_listsWords (fun _ h => ⟨_, (Option.some.inj h).symm⟩) fun _ h => by cases h)
  | cons param rest =>
    have hnot : ¬ Silent offer nested line := by simp [hsilent, hparams]
    refine answers_of_flat rfl (iff_of_false ?_ hnot) fun _ => ?_
    · rintro ⟨hcandidates, hmessage⟩
      simp only [List.head?_cons, List.map_eq_nil_iff] at hcandidates
      simp [hcandidates] at hmessage
    · simp only [Panel.SaysEmpty, List.head?_cons, titled, List.isEmpty_iff, List.map_eq_nil_iff]

theorem answers_closed {panel : Panel} (hexplains : Explains panel)
    (hnot : ¬ Silent offer nested line) (start : Nat) :
    Answers offer nested line (closed panel start) := by
  refine answers_of_flat hexplains.nested (iff_of_false ?_ hnot) fun h => ?_
  · exact fun h => hexplains.message h.message
  · exact absurd h (not_listsWords hexplains.header hexplains.signature)

/-- A list of values has no message, so it is blank if it comes out empty. -/
theorem answers_ofValues {current : Nat} {second : Bool} {values : List String}
    (hsilent : Silent offer nested line ↔ values = []) (spot : Place) :
    Answers offer nested line
      (ofValues (described (titled head.text nested) head c current second) spot values) := by
  refine answers_of_flat rfl ?_ fun h => absurd h (not_listsWords_described nested head c _ _)
  rw [hsilent]
  constructor
  · exact fun h => List.map_eq_nil_iff.mp h.candidates
  · exact fun h => ⟨List.map_eq_nil_iff.mpr h, rfl⟩

theorem answers_step (hdone : step offer nested line = .done completion) :
    Answers offer nested line completion := by
  cases atOnce_of_step hdone with
  | blank hscan =>
    refine answers_ofCommands (not_silent_of_not_begun hdone fun _ _ h => ?_) _ _
    cases hscan.symm.trans h.scan
  | word hscan hopen =>
    refine answers_ofCommands (not_silent_of_not_begun hdone fun _ _ h => ?_) _ _
    obtain ⟨rfl, rfl⟩ := List.cons.inj (hscan.symm.trans h.scan)
    simpa [hopen] using h.more
  | @overload head tail hbegun hmany htyping =>
    obtain ⟨first, hfirst⟩ : ∃ first,
        (offer.table.visibleOverloads head.text nested).head? = some first := by
      rw [List.head?_eq_some_head (List.ne_nil_of_length_pos (by omega))]
      exact ⟨_, rfl⟩
    refine answers_ofVariants hfirst ?_ _ _ _
    rw [silent_iff_of_untyped hdone hbegun (typedCommand?_of_choosing hmany htyping), hfirst]
    simp [hmany, htyping]
  | refused hbegun huntyped hnot hexplains =>
    refine answers_closed hexplains ?_ _
    rw [silent_iff_of_untyped hdone hbegun huntyped]
    rintro ⟨hmany, htyping, _⟩
    simp [hnot hmany] at htyping
  | row hat hp hkind =>
    refine answers_ofValues ?_ _
    rw [silent_iff_of_argument hdone hat, hp, rowsFor_eq_nil_iff]
    simp [hkind]
  | date hat hp hkind =>
    refine answers_ofValues ?_ _
    rw [silent_iff_of_argument hdone hat, hp, filter_dates_eq_nil_iff]
    simp [hkind]
  | told hat message hother =>
    refine answers_closed ⟨rfl, rfl, by simp, ?_, ?_⟩ ?_ _
    · exact fun _ h => ⟨_, (Option.some.inj h).symm⟩
    · exact fun _ h => Option.some.inj h ▸ rfl
    · rw [silent_iff_of_argument hdone hat]
      rintro ⟨p, hp, hnone⟩
      obtain ⟨hrow, hdate⟩ := hother p hp
      cases hkind : p.kind with
      | row => exact hrow hkind
      | date => exact hdate hkind
      | _ => simp [hkind, Offer.NoneFits] at hnone

theorem answers_ofLine (offer : Offer) (nested : Bool) (line : List Char) :
    Answers offer nested line (ofLine offer nested line) := by
  refine ofLine_induct (motive := Answers offer) ?_ ?_ nested line
  · intro nested line completion hdone
    exact answers_step hdone
  · intro nested line panel start hnest hsub
    have hinner : (around panel (subOffset line start)
        (ofLine offer true (subLine line start))).panel.innermost =
          (ofLine offer true (subLine line start)).panel.innermost :=
      Panel.innermost_nested _ _
    exact ⟨by rw [hinner, silent_iff_of_nest hnest, hsub.blank_iff], hinner ▸ hsub.saysEmpty⟩

end Completion

namespace Suggestion

open Completion

variable {offer : Offer} {nested : Bool} {cursor : Nat} {line : List Char} {event : InputEvent}
  {panel : Panel}

/-- Whatever has happened at a line, the innermost panel that is shown is blank exactly if the line
that it is shown for is silent. A list of commands or of the words of overloads is never blank: it
has candidates, or the panel says that nothing was found. -/
theorem blank_iff_silent
    (hshown : (after offer nested cursor line event).panel? = some panel) :
    (panel.innermost.Blank ↔
      Silent offer nested ((after offer nested cursor line event).completed.getD line)) ∧
    (panel.innermost.ListsWords → panel.innermost.SaysEmpty) := by
  obtain ⟨index, hpanel⟩ := exists_select_of_shown hshown
  generalize (after offer nested cursor line event).completed.getD line = shownLine at hpanel ⊢
  subst hpanel
  have hanswers := answers_ofLine offer nested shownLine
  refine ⟨(Panel.blank_select_iff index).trans hanswers.blank_iff, fun h => ?_⟩
  rw [Panel.saysEmpty_select_iff]
  refine hanswers.saysEmpty ?_
  rw [Panel.innermost_select] at h
  exact h

def bareTable : CommandTable := .ofCommands
  [⟨"get", "", false, []⟩, ⟨"get", "", false, [.leading "mode" "all"]⟩]

theorem blank_of_bare_overload :
    bareTable.check = .ok () ∧ ∃ panel,
      (after ⟨bareTable, [], []⟩ false 0 "get ".toList (.key .other)).panel? = some panel ∧
      panel.innermost.Blank := by
  have hscan : Token.scan "get ".toList = [⟨"get", 0⟩] := by decide +kernel
  have hsilent : Silent ⟨bareTable, [], []⟩ false "get ".toList :=
    .overload ⟨hscan, .inr rfl⟩ (by decide) rfl rfl rfl
  exact ⟨by decide, _, rfl,
    (@blank_iff_silent ⟨bareTable, [], []⟩ false 0 "get ".toList (.key .other) _ rfl).1.mpr hsilent⟩

/-- No row starts with what is typed, and the panel says nothing about it. -/
theorem blank_of_unmatched_row :
    CommandTable.builtin.check = .ok () ∧ ∃ panel,
      (after ⟨.builtin, ["t"], ["2024-04-24"]⟩ false 0 "min `zz".toList (.key .other)).panel? =
        some panel ∧
      panel.innermost.candidates = [] ∧ panel.innermost.message = none := by
  have hrow : step ⟨.builtin, ["t"], ["2024-04-24"]⟩ false "min `zz".toList =
      .done (ofValues (described (titled "min" false) ⟨"min", 0⟩
        CommandTable.builtin.commands[3] 0 false) ⟨3, 4⟩ []) :=
    rfl
  refine ⟨CommandTable.builtin_sound, _, rfl, ?_, ?_⟩
  · rw [ofLine_done hrow]
    rfl
  · rw [ofLine_done hrow]
    rfl

end Suggestion

end Almanac
