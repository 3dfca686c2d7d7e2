import Almanac.Proofs.Completion.Insertion
import Almanac.Proofs.Completion.Typing
import Almanac.Proofs.Query.Viable

/-!
What completion offers fits. Where finished tokens can be continued to a query, each insertion is
made of whole words that fit behind them, and with these words the texts stay viable.
-/

namespace Almanac

open CommandTable Grammar Token

/-- What can be completed from besides the built-in commands: rows without blanks and quotes, and
ISO dates. -/
structure Offer.Usable (offer : Offer) : Prop where
  table_eq : offer.table = builtin
  rows : ∀ row ∈ offer.rows, ' ' ∉ row.toList ∧ '"' ∉ row.toList
  dates : ∀ date ∈ offer.dates, isIsoDate date = true

namespace Completion

variable {offer : Offer} {days : Nat} {nested : Bool} {front typed : List Char} {head : Token}
  {finished : List Token} {c : Command}

theorem plain_of_isIsoDate {date : String} (h : isIsoDate date = true) :
    Plain date ∧ '"' ∉ date.toList := by
  obtain ⟨-, hchars, first, hfirst, hdigit⟩ := Argument.of_isIsoDate h
  have hblank : ' ' ∉ date.toList := by
    intro hmem
    simpa using hchars ' ' hmem
  have hquote : '"' ∉ date.toList := by
    intro hmem
    simpa using hchars '"' hmem
  refine ⟨⟨?_, hblank, ?_⟩, hquote⟩
  · intro hnil
    simp [hnil] at hfirst
  · have hne : first ≠ '"' := by
      rintro rfl
      cases hdigit
    simp [opensRun, hfirst, hne]

theorem toList_quoteRow (row : String) : (quoteRow row).toList = '`' :: (row.toList ++ ['`']) := by
  simp [quoteRow, String.toList_append]

theorem plain_quoteRow {row : String} (h : ' ' ∉ row.toList) : Plain (quoteRow row) := by
  simp [Plain, toList_quoteRow, opensRun, h]

theorem isRow_quoteRow (row : String) : Argument.IsRow (quoteRow row) := by
  rw [Argument.IsRow, Argument.IsWrapped, ← String.length_toList, toList_quoteRow]
  refine ⟨?_, rfl, ?_⟩
  · simp
  · rw [← List.cons_append, List.getLast?_concat]

/-- Each value that can be chosen fits its parameter and makes one token. -/
theorem fits_of_mem_valuesFor (hoffer : offer.Usable) {kind : ParamKind} {entered value : String}
    (h : value ∈ valuesFor offer entered (some kind)) :
    Plain value ∧ Argument.Fits days kind value ∧ '"' ∉ value.toList := by
  cases kind with
  | row =>
    obtain ⟨row, hrow, rfl⟩ := List.mem_map.mp h
    obtain ⟨hblank, hquote⟩ := hoffer.rows row (List.mem_filter.mp hrow).1
    exact ⟨plain_quoteRow hblank, Argument.fits_row_iff.mpr (isRow_quoteRow row),
      by simpa [toList_quoteRow] using hquote⟩
  | date =>
    have hiso := hoffer.dates value (List.mem_filter.mp h).1
    obtain ⟨hplain, hquote⟩ := plain_of_isIsoDate hiso
    exact ⟨hplain, Argument.fits_date_iff.mpr (.inr ⟨(Argument.of_isIsoDate hiso).1, hiso⟩), hquote⟩
  | _ => cases h

def LeadsOn (days : Nat) (nested : Bool) (front : List Char) (completion : Completion) : Prop :=
  ∀ insertion ∈ completion.insertions, completion.replaceFrom = Text.width front ∧
    ∃ words, (∀ word ∈ words, Plain word) ∧ insertion.toList ++ [' '] = lineOf words ∧
      Viable days nested ((scan front).map Token.text ++ words)

theorem lineOf_singleton (word : String) : lineOf [word] = word.toList ++ [' '] := by
  simp [lineOf, Text.ended]

theorem lineOf_insertion (c : Command) :
    c.insertion.toList ++ [' '] = lineOf (c.name :: c.discriminant.toList) := by
  rw [Command.insertion]
  cases c.discriminant with
  | none => exact (lineOf_singleton c.name).symm
  | some word => simp [lineOf, Text.ended, String.toList_append]

/-- Before the first word a query may begin with any command that is offered. -/
theorem leadsOn_of_start (hoffer : offer.Usable) (h : Typing front typed)
    (hscan : scan front = []) :
    LeadsOn days nested front (ofLine offer nested (front ++ typed)) := by
  rw [ofLine_done (step_of_start h hscan)]
  intro insertion hmem
  obtain ⟨c, hc, rfl⟩ := List.mem_map.mp hmem
  obtain ⟨hcommand, hvisible⟩ := List.mem_filter.mp (List.mem_filter.mp hc).1
  rw [hoffer.table_eq] at hcommand
  refine ⟨rfl, c.name :: c.discriminant.toList, builtin_plain c hcommand, lineOf_insertion c, ?_⟩
  rw [hscan]
  exact viable_start hcommand hvisible

theorem leadsOn_of_keyed (hoffer : offer.Usable) (h : Typing front typed)
    (hscan : scan front = [head]) (hmem : c ∈ builtin.commands) (hname : c.name = head.text)
    (hkeyed : c.discriminant ≠ none) :
    LeadsOn days false front (ofLine offer false (front ++ typed)) := by
  obtain ⟨completion, rfl, -, -, -, hinsertions, hfrom⟩ :=
    ofLine_of_keyed hoffer.table_eq h hscan hmem hname hkeyed
  intro insertion hinsertion
  rw [hinsertions] at hinsertion
  obtain ⟨d, hd, hword⟩ := List.mem_filterMap.mp (List.mem_filter.mp hinsertion).1
  obtain ⟨hdmem, hdname⟩ := of_mem_visibleOverloads hd
  have hplain := builtin_plain d hdmem
  have hviable := @viable_start days false d hdmem d.visibleIn_false
  rw [hword, hdname] at hplain hviable
  refine ⟨hfrom, [insertion], ?_, (lineOf_singleton insertion).symm, ?_⟩
  · exact (List.forall_mem_cons.mp hplain).2
  · rw [hscan]
    exact hviable

/-- A value that is offered for an argument fits there. -/
theorem leadsOn_of_bare (hoffer : offer.Usable) (h : Typing front typed)
    (hscan : scan front = head :: finished) (hmem : c ∈ builtin.commands)
    (hname : c.name = head.text) (hvisible : c.visibleIn nested = true)
    (hbare : c.discriminant = none) {more : List String}
    (hderives : Derives days nested ((head :: finished).map Token.text ++ more)) :
    LeadsOn days nested front (ofLine offer nested (front ++ typed)) := by
  have hflat := builtin_bare c hmem hbare
  obtain ⟨completion, second, rfl, -, -, -, hinsertions, hfrom⟩ :=
    ofLine_of_own hoffer.table_eq h hscan (hname ▸ resolve_of_bare hmem hbare hvisible _)
      (.inr hflat)
  intro insertion hinsertion
  rw [hinsertions] at hinsertion
  cases hp : c.params[finished.length]? with
  | none =>
    rw [hp] at hinsertion
    cases hinsertion
  | some p =>
    rw [hp] at hinsertion
    obtain ⟨hplain, hfits, -⟩ := @fits_of_mem_valuesFor offer days hoffer _ _ _ hinsertion
    refine ⟨hfrom, [insertion], by simpa using hplain, (lineOf_singleton insertion).symm, ?_⟩
    rw [List.map_cons, ← hname] at hderives
    rw [hscan, List.map_cons, ← hname]
    exact viable_of_derives_flat hmem hvisible hbare hflat hderives (by simpa using hp) hfits

/-! Sub-queries -/

theorem exists_of_sub {word : String} {args : List String} (h : Sub days (word :: args)) :
    ∃ c ∈ builtin.commands, c.name = word ∧ c.canSubQuery = true := by
  rw [← text_tokensOf args] at h
  obtain ⟨c, hmem, hname, -⟩ := (@sub_iff_follows days 0 true 0 (tokensOf args) word).mp h
  exact ⟨c, hmem, hname⟩

/-- What is chosen in a sub-query leads on to a sub-query. -/
theorem leadsOn_of_nested (hoffer : offer.Usable) (h : Typing front typed)
    (hviable : scan front = [] ∨ ∃ more, Sub days ((scan front).map Token.text ++ more)) :
    LeadsOn days true front (ofLine offer true (front ++ typed)) := by
  cases hscan : scan front with
  | nil => exact leadsOn_of_start hoffer h hscan
  | cons head finished =>
    rw [hscan] at hviable
    obtain ⟨more, hsub⟩ := hviable.resolve_left (by simp)
    obtain ⟨c, hmem, hname, hnested⟩ := exists_of_sub hsub
    exact leadsOn_of_bare hoffer h hscan hmem hname (c.visibleIn_true.trans hnested)
      (builtin_nested_bare c hmem hnested) hsub

/-- What leads on in a sub-query leads on in its query, if texts that are viable there are viable
behind the texts before it. -/
theorem LeadsOn.around {pre sub : List Char} {before : List String} {inner : Completion}
    (h : LeadsOn days true sub inner) (outer : Panel)
    (htexts : (scan (pre ++ sub)).map Token.text = before ++ (scan sub).map Token.text)
    (hlift : ∀ texts, Viable days true texts → Viable days nested (before ++ texts)) :
    LeadsOn days nested (pre ++ sub) (around outer (Text.width pre) inner) := by
  intro insertion hinsertion
  obtain ⟨hfrom, words, hplain, hline, hviable⟩ := h insertion hinsertion
  refine ⟨?_, words, hplain, hline, ?_⟩
  · rw [Text.width_append, ← hfrom]
    rfl
  · rw [htexts, List.append_assoc]
    exact hlift _ hviable

/-- What is chosen in a sub-query leads on, wherever completion finds that it begins. -/
theorem leadsOn_of_inner (hoffer : offer.Usable) (h : Typing front typed)
    {skipped rest : List Token} (hscan : scan front = head :: (skipped ++ rest))
    (hresolve : builtin.resolve head.text ((skipped ++ rest).head?.map Token.text) nested = some c)
    (hslots : c.subQueryParams ≠ []) (hreached : c.positional.length ≤ (skipped ++ rest).length)
    (hstart : subQueryToken? builtin (skipped ++ (rest ++ pending front typed)) c
      (secondBegun builtin (head :: (skipped ++ (rest ++ pending front typed)))) =
        (rest ++ pending front typed).head?)
    (hviable : rest = [] ∨ ∃ more, Sub days (rest.map Token.text ++ more))
    (hlift : ∀ texts, Viable days true texts →
      Viable days nested ((head :: skipped).map Token.text ++ texts)) :
    LeadsOn days nested front (ofLine offer nested (front ++ typed)) := by
  obtain ⟨outer, pre, sub, rfl, hsub, hrest, haround⟩ :=
    exists_around hoffer.table_eq h hscan hresolve hslots hreached hstart
  have htexts : (scan sub).map Token.text = rest.map Token.text := by
    rw [← hrest, List.map_map]
    rfl
  rw [haround]
  refine LeadsOn.around ?_ outer ?_ hlift
  · refine leadsOn_of_nested hoffer hsub ?_
    rcases hviable with rfl | hmore
    · exact .inl (List.map_eq_nil_iff.mp hrest)
    · exact .inr (htexts ▸ hmore)
  · rw [hscan, htexts, ← List.cons_append, List.map_append]

/-- Arguments that are neither rows nor dates are written by hand. -/
theorem insertions_of_own (htable : offer.table = builtin) (h : Typing front typed)
    (hscan : scan front = head :: finished)
    (hresolve : builtin.resolve head.text (finished.head?.map Token.text) nested = some c)
    (hlt : finished.length < c.positional.length) {p : Param}
    (hp : c.params[finished.length]? = some p) (hrow : p.kind ≠ .row) (hdate : p.kind ≠ .date) :
    (ofLine offer nested (front ++ typed)).insertions = [] := by
  obtain ⟨completion, second, rfl, -, -, -, hinsertions, -⟩ :=
    ofLine_of_own htable h hscan hresolve (.inl hlt)
  rw [hinsertions, hp, Option.map_some, valuesFor_eq_nil hrow hdate]

/-- What is chosen in a comparison with the archive leads on: its own arguments offer nothing. -/
theorem leadsOn_of_archive (hoffer : offer.Usable) (h : Typing front typed) {lead : Token}
    (hscan : scan front = head :: lead :: finished) (hmem : c ∈ builtin.commands)
    (hname : c.name = head.text) (houter : c.canSubQuery = false) {own : List Param} {slot : Param}
    (hparams : c.params = comparison lead.text own [slot])
    (hown : ∀ p ∈ own, p.kind ≠ .subQuery ∧ p.optional = false)
    (hkinds : ∀ p ∈ own, p.kind ≠ .row ∧ p.kind ≠ .date) (hslot : slot.kind = .subQuery)
    {more args texts : List String} (hrest : finished.map Token.text ++ more = args ++ texts)
    (hfits : List.Forall₂ (fun p text => Argument.Fits days p.kind text) own args)
    (hsub : Sub days texts) :
    LeadsOn days false front (ofLine offer false (front ++ typed)) := by
  obtain ⟨hpositional, -, hslots⟩ := comparison_params hparams hown (by simpa using hslot)
  have hlength : c.positional.length = own.length + 1 := by rw [hpositional, List.length_cons]
  have hresolve (rest : List Token) :
      builtin.resolve head.text ((lead :: rest).head?.map Token.text) false = some c :=
    hname ▸ resolve_of_discriminant hmem (discriminant_comparison hparams)
  by_cases hlt : finished.length < own.length
  · have hp : c.params[(lead :: finished).length]? = some own[finished.length] := by
      rw [hparams, comparison, List.length_cons, List.getElem?_cons_succ,
        List.getElem?_append_left hlt, List.getElem?_eq_getElem hlt]
    obtain ⟨hrow, hdate⟩ := hkinds _ (List.getElem_mem hlt)
    have hnone := insertions_of_own hoffer.table_eq h hscan (hresolve finished)
      (by rw [hlength, List.length_cons]; omega) hp hrow hdate
    rw [LeadsOn, hnone]
    exact List.forall_mem_nil _
  · obtain ⟨own', rest, rfl, htake⟩ : ∃ own' rest, finished = own' ++ rest ∧
        own'.length = own.length :=
      ⟨_, _, (List.take_append_drop own.length finished).symm,
        List.length_take_of_le (Nat.le_of_not_lt hlt)⟩
    obtain ⟨rfl, rfl⟩ : own'.map Token.text = args ∧ rest.map Token.text ++ more = texts := by
      rw [List.map_append, List.append_assoc] at hrest
      exact List.append_inj hrest (by rw [List.length_map, htake, hfits.length_eq])
    refine @leadsOn_of_inner offer days false front typed head c hoffer h (lead :: own') rest hscan
      (hresolve _) (by simp [hslots]) ?_ ?_ (.inr ⟨more, hsub⟩) ?_
    · simp only [hlength, List.cons_append, List.length_cons, List.length_append]
      omega
    · exact subQueryToken?_of_first (by rw [hlength, List.length_cons, htake])
        (.inl (congrArg List.length hslots))
    · intro texts hviable
      have hmore := viable_comparison hmem houter hparams hown hslot hfits hviable
      rwa [hname] at hmore

/-! Two sub-queries -/

theorem OneCommand.append {xs ys : List Token} (h : OneCommand xs)
    (hys : ∀ u ∈ ys, builtin.isCommandName u.text = false) : OneCommand (xs ++ ys) := by
  obtain ⟨t, rest, rfl, ht, hrest⟩ := h
  exact ⟨t, rest ++ ys, rfl, ht, List.forall_mem_append.mpr ⟨hrest, hys⟩⟩

/-- The first tokens of a sub-query have its command word and no other. -/
theorem oneCommand_of_begun {tokens : List Token} (hne : tokens ≠ []) {more : List String}
    (h : Sub days (tokens.map Token.text ++ more)) : OneCommand tokens := by
  rw [← text_tokensOf more, ← List.map_append] at h
  obtain ⟨t, rest, rfl⟩ := List.exists_cons_of_ne_nil hne
  exact (oneCommand_of_sub h).of_append

section Pair

variable {lead : Token}

theorem isCommandName_compare : builtin.isCommandName "compare" = true := by decide

/-- The command that compares two sub-queries. -/
theorem exists_pair (hhead : head.text = "compare") (hlead : lead.text = "dataset") :
    ∃ c, (∀ rest, builtin.resolve head.text ((lead :: rest).head?.map Token.text) false = some c) ∧
      c.positional.length = 1 ∧ c.subQuerySlots = 2 := by
  obtain ⟨c, hmem, hname, hparams⟩ := exists_dataset
  obtain ⟨hpositional, -, hslots⟩ := comparison_params hparams (by simp) (by decide)
  refine ⟨c, fun rest => ?_, congrArg List.length hpositional, congrArg List.length hslots⟩
  rw [hhead, ← hname, List.head?_cons, Option.map_some, hlead]
  exact resolve_of_discriminant hmem (discriminant_comparison hparams)

/-- With fewer than three command words, what is typed belongs to the first sub-query. -/
theorem leadsOn_of_left (hoffer : offer.Usable) (h : Typing front typed)
    (hscan : scan front = head :: lead :: finished) (hhead : head.text = "compare")
    (hlead : lead.text = "dataset")
    (hcount : (finished ++ pending front typed).countP
      (fun t => builtin.isCommandName t.text) ≤ 1)
    (hviable : finished = [] ∨ ∃ more, Sub days (finished.map Token.text ++ more)) :
    LeadsOn days false front (ofLine offer false (front ++ typed)) := by
  obtain ⟨c, hresolve, hown, htwo⟩ := exists_pair hhead hlead
  refine @leadsOn_of_inner offer days false front typed head c hoffer h [lead] finished hscan
    (hresolve finished) (Command.subQueryParams_ne_nil htwo) (by simp [hown]) ?_ hviable ?_
  · exact subQueryToken?_left (hhead ▸ isCommandName_compare) hlead hown htwo hcount
  · intro texts htexts
    have hmore := viable_left htexts
    rwa [← hhead, ← hlead] at hmore

/-- Behind a whole sub-query, what is typed from a third command word on belongs to the second. -/
theorem leadsOn_of_right (hoffer : offer.Usable) (h : Typing front typed)
    {left rest : List Token} (hscan : scan front = head :: lead :: (left ++ rest))
    (hhead : head.text = "compare") (hlead : lead.text = "dataset")
    (hleft : Sub days (left.map Token.text)) (hone : OneCommand (rest ++ pending front typed))
    (hviable : rest = [] ∨ ∃ more, Sub days (rest.map Token.text ++ more)) :
    LeadsOn days false front (ofLine offer false (front ++ typed)) := by
  obtain ⟨c, hresolve, hown, htwo⟩ := exists_pair hhead hlead
  refine @leadsOn_of_inner offer days false front typed head c hoffer h (lead :: left) rest hscan
    (hresolve (left ++ rest)) (Command.subQueryParams_ne_nil htwo) (by simp [hown]) ?_ hviable ?_
  · exact subQueryToken?_right (hhead ▸ isCommandName_compare) hlead htwo
      (oneCommand_of_sub hleft) hone
  · intro texts htexts
    have hmore := viable_right hleft htexts
    rwa [← hhead, ← hlead] at hmore

/-- A typed token that is a command word is no argument of a sub-query that has begun. -/
theorem eq_nil_of_extends {xs : List Token} (hne : xs ≠ []) {first rest : List String}
    (hsub : Sub days (xs.map Token.text ++ first)) {t : Token}
    (hword : builtin.isCommandName t.text = true)
    (hextends : ∃ text, (first ++ rest).head? = some text ∧ t.text.toList <+: text.toList) :
    first = [] := by
  obtain ⟨x, xs, rfl⟩ := List.exists_cons_of_ne_nil hne
  cases first with
  | nil => rfl
  | cons text first =>
    obtain ⟨_, hhead, hstarts⟩ := hextends
    obtain rfl := Option.some.inj hhead
    exact absurd hstarts
      (hsub.not_word (by simp) (isCommandName_builtin_iff.mp hword))

theorem pending_of_mem (h : Typing front typed) {t : Token} (ht : t ∈ pending front typed) :
    pending front typed = [t] := by
  rcases h.cases with ⟨-, hpending, -⟩ | ⟨hpending, -⟩
  · rw [hpending] at ht
    cases ht
  · rw [hpending] at ht ⊢
    rw [List.mem_singleton.mp ht]

theorem leadsOn_within_left (hoffer : offer.Usable) (h : Typing front typed)
    (hscan : scan front = head :: lead :: finished) (hhead : head.text = "compare")
    (hlead : lead.text = "dataset") {first right : List String}
    (hleft : Sub days (finished.map Token.text ++ first))
    (hextends : ∀ t ∈ pending front typed, builtin.isCommandName t.text = true →
      ∃ text, (first ++ right).head? = some text ∧ t.text.toList <+: text.toList) :
    LeadsOn days false front (ofLine offer false (front ++ typed)) := by
  -- A command word that is being typed begins the first sub-query if nothing of it is finished,
  -- and else the second one, so that the first one is whole.
  by_cases hword : ∃ t ∈ pending front typed, builtin.isCommandName t.text = true
  · obtain ⟨t, ht, hword⟩ := hword
    have hpending := pending_of_mem h ht
    have hone : OneCommand (pending front typed) := ⟨t, [], hpending, hword, by simp⟩
    by_cases hne : finished = []
    · refine leadsOn_of_left hoffer h hscan hhead hlead ?_ (.inl hne)
      rw [hne, List.nil_append, hone.countP_eq]
    · obtain rfl := eq_nil_of_extends hne hleft hword (hextends t ht hword)
      rw [List.append_nil] at hleft
      refine @leadsOn_of_right offer days front typed head lead hoffer h finished [] ?_ hhead hlead
        hleft hone (.inl rfl)
      rw [hscan, List.append_nil]
  · have hplain : ∀ t ∈ pending front typed, builtin.isCommandName t.text = false := by
      simpa using hword
    refine leadsOn_of_left hoffer h hscan hhead hlead ?_ (.inr ⟨first, hleft⟩)
    by_cases hne : finished = []
    · rw [hne, List.nil_append, List.countP_eq_zero.mpr (by simpa using hplain)]
      exact Nat.zero_le _
    · rw [((oneCommand_of_begun hne hleft).append hplain).countP_eq]

/-- What is chosen in a comparison of two sub-queries leads on. -/
theorem leadsOn_of_pair (hoffer : offer.Usable) (h : Typing front typed)
    (hscan : scan front = head :: lead :: finished) (hhead : head.text = "compare")
    (hlead : lead.text = "dataset") {more left right : List String}
    (hrest : finished.map Token.text ++ more = left ++ right) (hleft : Sub days left)
    (hright : Sub days right)
    (hextends : ∀ t ∈ pending front typed, builtin.isCommandName t.text = true →
      ∃ text, more.head? = some text ∧ t.text.toList <+: text.toList) :
    LeadsOn days false front (ofLine offer false (front ++ typed)) := by
  -- The finished tokens end within the first sub-query, or within the second one.
  rcases List.append_eq_append_iff.mp hrest with ⟨first, rfl, rfl⟩ | ⟨begun, hfinished, rfl⟩
  · exact leadsOn_within_left hoffer h hscan hhead hlead hleft hextends
  · obtain ⟨xs, ys, rfl, rfl, rfl⟩ := List.map_eq_append_iff.mp hfinished
    by_cases hne : ys = []
    · subst hne
      rw [List.append_nil] at hscan
      rw [← List.append_nil (xs.map Token.text)] at hleft
      exact leadsOn_within_left hoffer h hscan hhead hlead hleft hextends
    · have hplain : ∀ t ∈ pending front typed, builtin.isCommandName t.text = false := by
        intro t ht
        rw [Bool.eq_false_iff]
        intro hword
        obtain ⟨text, hmore, hstarts⟩ := hextends t ht hword
        rw [← List.append_nil more] at hmore
        obtain rfl := eq_nil_of_extends hne hright hword ⟨text, hmore, hstarts⟩
        cases hmore
      exact leadsOn_of_right hoffer h hscan hhead hlead hleft
        ((oneCommand_of_begun hne hright).append hplain) (.inr ⟨more, hright⟩)

end Pair

/-! Any query -/

/-- Where the finished tokens can be continued to a query, what is chosen leads on. A command word
that is being typed must be the start of the text that follows. -/
theorem leadsOn_of_outer (hoffer : offer.Usable) (h : Typing front typed) {more : List String}
    (hviable : scan front = [] ∨ Top days ((scan front).map Token.text ++ more))
    (hextends : ∀ t ∈ pending front typed, builtin.isCommandName t.text = true →
      ∃ text, more.head? = some text ∧ t.text.toList <+: text.toList) :
    LeadsOn days false front (ofLine offer false (front ++ typed)) := by
  cases hscan : scan front with
  | nil => exact leadsOn_of_start hoffer h hscan
  | cons head finished =>
    rw [hscan] at hviable
    have htop := hviable.resolve_left (by simp)
    have hcommand := htop
    rw [List.map_cons, List.cons_append,
      ← text_tokensOf (finished.map Token.text ++ more)] at hcommand
    obtain ⟨c, hmem, ⟨hname, hnext⟩, hfollows⟩ :=
      @exists_follows_of_top days 0 false 0 _ _ hcommand
    cases hword : c.discriminant with
    | none =>
      exact leadsOn_of_bare hoffer h hscan hmem hname c.visibleIn_false hword htop
    | some word =>
      cases finished with
      | nil => exact leadsOn_of_keyed hoffer h hscan hmem hname (by simp [hword])
      | cons lead finished =>
        have hlead := hnext.resolve_left (by simp [hword])
        obtain rfl : word = lead.text := Option.some.inj (hword.symm.trans hlead)
        obtain ⟨hcompare, houter, hshape⟩ := builtin_comparison hmem hword
        rcases hshape with ⟨own, slot, hparams, hown, hkinds, hslot⟩ | ⟨hparams, hdataset⟩
        · obtain ⟨args, texts, htexts, hfits, hsub⟩ :=
            (comparison_iff hparams hown hslot).mp ⟨hlead, hfollows⟩
          rw [text_tokensOf] at htexts
          exact leadsOn_of_archive hoffer h hscan hmem hname houter hparams hown hkinds hslot
            (List.cons.inj htexts).2 hfits hsub
        · obtain ⟨left, right, htexts, hleft, hright⟩ :=
            (pair_iff hparams rfl rfl).mp ⟨hlead, hfollows⟩
          rw [text_tokensOf] at htexts
          exact leadsOn_of_pair hoffer h hscan (hname.symm.trans hcompare) hdataset
            (List.cons.inj htexts).2 hleft hright hextends

end Completion

end Almanac
