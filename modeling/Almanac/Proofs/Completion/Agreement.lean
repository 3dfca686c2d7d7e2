import Almanac.Proofs.Completion.Insertion
import Almanac.Proofs.Completion.Typing

/-!
Completion and the parser agree on positions. Where a line is cut before one of its arguments, the
tokens before the cut are finished and the next one has not begun. The innermost panel for such a
front documents the command that the argument belongs to, and it highlights the parameter that the
argument is bound to.
-/

namespace Almanac

open Query

namespace Panel

/-- The panel documents a command and highlights its parameter at a position, and no other. -/
structure Documents (panel : Panel) (c : Command) (i : Nat) : Prop where
  header : panel.header = some ("Query " ++ c.name ++ " documentation:")
  highlights : ∃ s p, panel.signature = some s ∧ s.command = c.name ∧ c.params[i]? = some p ∧
    s.params[i]? = some (.ofParam p true) ∧
    ∀ j shown, s.params[j]? = some shown → (shown.current = true ↔ j = i)

/-- Selecting a candidate changes nothing that is said about a command. -/
theorem Documents.select {panel : Panel} {c : Command} {i : Nat}
    (h : panel.innermost.Documents c i) (index : Nat) :
    (panel.select index).innermost.Documents c i := by
  rw [innermost_select]
  exact ⟨h.header, h.highlights⟩

end Panel

namespace Completion

open CommandTable Token

variable {offer : Offer} {days lineLength : Nat} {nested : Bool} {line front typed : List Char}
  {head : Token} {finished tail : List Token} {c : Command} {args : List Argument}
  {runs : List (List Token)}

/-- At one of its own parameters a signature highlights that parameter alone. -/
theorem signature_highlights (hcheck : c.check = .ok ()) {i : Nat}
    (hlt : i < c.positional.length) (second : Bool) :
    ∃ p, c.params[i]? = some p ∧ (signature head c i second).params[i]? = some (.ofParam p true) ∧
      ∀ j shown, (signature head c i second).params[j]? = some shown →
        (shown.current = true ↔ j = i) := by
  have hlength : i < c.params.length := by
    rw [Command.params_eq_append hcheck, List.length_append]
    exact Nat.lt_add_right _ hlt
  refine ⟨c.params[i], List.getElem?_eq_getElem hlength, ?_, ?_⟩
  · simp [signature, List.getElem?_eq_getElem hlength]
  · intro j shown hj
    obtain ⟨p, hp, rfl⟩ := Option.map_eq_some_iff.mp ((List.getElem?_mapIdx ..).symm.trans hj)
    have hown : j ≤ i → p.kind ≠ .subQuery := fun hji =>
      Command.kind_ne_of_own hcheck (.inl (Nat.lt_of_le_of_lt hji hlt)) hp
    simp only [SignatureParam.ofParam, Bool.or_eq_true, Bool.and_eq_true, decide_eq_true_eq]
    constructor
    · intro hcurrent
      rcases hcurrent with ⟨⟨hji, hkind⟩, -⟩ | heq
      · exact absurd hkind (hown hji)
      · exact heq
    · exact .inr

/-- Before one of its own arguments the panel of a command documents the parameter. -/
theorem documents_of_own (htable : offer.table = builtin) (h : Typing front typed)
    (hscan : scan front = head :: finished)
    (hresolve : builtin.resolve head.text (finished.head?.map Token.text) nested = some c)
    (hlt : finished.length < c.positional.length) :
    (ofLine offer nested (front ++ typed)).panel.innermost.Documents c finished.length := by
  obtain ⟨hmem, hanswers⟩ := resolve_builtin_iff.mp hresolve
  have hname := (Command.answers_iff.mp hanswers).1
  have hcheck := check_of_mem hmem
  obtain ⟨completion, second, rfl, hnested, hheader, hsignature, -⟩ :=
    ofLine_of_own htable h hscan hresolve (.inl hlt)
  obtain ⟨p, hp, hshown, honly⟩ := @signature_highlights head c hcheck finished.length hlt second
  rw [Panel.innermost_of_none hnested]
  exact ⟨hheader, _, p, hsignature, hname.symm, hp, hshown, honly⟩

/-- Before the word that tells overloads apart the panel documents the parameter for it. -/
theorem documents_of_overload (htable : offer.table = builtin) (h : Typing front typed)
    (hscan : scan front = [head]) (hmem : c ∈ builtin.commands) (hname : c.name = head.text)
    (hkeyed : c.discriminant ≠ none) :
    (ofLine offer false (front ++ typed)).panel.innermost.Documents c 0 := by
  obtain ⟨word, hword⟩ := Option.ne_none_iff_exists'.mp hkeyed
  have hp := (leading_of_discriminant c hmem hkeyed).2
  rw [hword, Option.map_some] at hp
  obtain ⟨completion, rfl, hnested, hheader, hsignature, -⟩ :=
    ofLine_of_keyed htable h hscan hmem hname hkeyed
  rw [Panel.innermost_of_none hnested]
  refine ⟨hheader, _, _, hsignature, rfl, hp, rfl, ?_⟩
  intro j shown hj
  cases j with
  | zero =>
    obtain rfl := Option.some.inj hj
    simp [SignatureParam.ofParam]
  | succ j => cases hj

/-! The arguments of a query that is read -/

/-- The token of an argument, with the ones before it, and the parameter it is bound to. -/
theorem exists_token_of_arg (h : Heads builtin days nested head tail c args runs) {a : Argument}
    {i : Nat} (ha : args[i]? = some a) :
    ∃ before after p, tail = before ++ a.token :: after ∧ before.length = i ∧
      a.span.start = a.token.start ∧ c.positional[i]? = some p ∧ p.name = a.name ∧
      p.kind = a.kind := by
  have hbound := Argument.bindAll_eq_ok_iff.mp h.bound
  obtain ⟨hlt, rfl⟩ := List.getElem?_eq_some_iff.mp ha
  have hzip : i < (c.positional.zip tail).length := hbound.length_eq ▸ hlt
  have hbind := hbound.get hzip hlt
  rw [List.length_zip] at hzip
  simp only [List.get_eq_getElem, List.getElem_zip] at hbind
  obtain ⟨value, -, heq⟩ := Argument.bind_eq_ok_iff.mp hbind
  have htoken : args[i].token = tail[i] := by
    rw [heq]
    rfl
  refine ⟨tail.take i, tail.drop (i + 1), c.positional[i], ?_, ?_, rfl, ?_, ?_, ?_⟩
  · rw [htoken, List.getElem_cons_drop, List.take_append_drop]
  · rw [List.length_take]
    omega
  · exact List.getElem?_eq_getElem _
  · rw [heq]
  · rw [heq]

/-- Where a line is cut before a token, that token is about to be typed. -/
theorem exists_typing (hquotes : EvenQuotes line) {xs ys : List Token} {t : Token}
    (h : scan line = xs ++ t :: ys) :
    ∃ front back, line = front ++ back ∧ Text.width front = t.start ∧ Typing front [] ∧
      scan front = xs := by
  obtain ⟨front, back, hcut⟩ := exists_cut h
  refine ⟨front, t.text.toList ++ back, by rw [hcut.line_eq, List.append_assoc], hcut.start_eq,
    ⟨hcut.settled, .inl rfl, ?_⟩, hcut.before⟩
  intro u hu
  rw [List.append_nil, hcut.before] at hu
  exact hquotes u (h ▸ List.mem_append_left _ hu)

theorem documents_of_outer (htable : offer.table = builtin) (hquotes : EvenQuotes line)
    (hline : scan line = head :: tail) (h : Heads builtin days false head tail c args runs)
    {a : Argument} {i : Nat} (ha : args[i]? = some a) :
    ∃ front back, line = front ++ back ∧ Text.width front = a.span.start ∧
      (ofLine offer false front).panel.innermost.Documents c i := by
  obtain ⟨before, after, p, rfl, rfl, hstart, hp, -⟩ := exists_token_of_arg h ha
  obtain ⟨hlt, -⟩ := List.getElem?_eq_some_iff.mp hp
  obtain ⟨front, back, hsplit, hwidth, htyping, hscan⟩ :=
    @exists_typing line hquotes (head :: before) after a.token hline
  refine ⟨front, back, hsplit, hwidth.trans hstart.symm, ?_⟩
  obtain ⟨hmem, hanswers⟩ := resolve_builtin_iff.mp h.resolved
  obtain ⟨hname, hvisible, hnext⟩ := Command.answers_iff.mp hanswers
  rw [← List.append_nil front]
  cases before with
  | cons lead before => exact documents_of_own htable htyping hscan h.resolved hlt
  | nil =>
    by_cases hbare : c.discriminant = none
    · exact documents_of_own htable htyping hscan (hname ▸ resolve_of_bare hmem hbare hvisible _)
        hlt
    · exact documents_of_overload htable htyping hscan hmem hname hbare

/-- Among the tokens after a command word, those of a sub-query follow the skipped ones. However
far they are typed, completion finds where they begin. -/
structure Found (head : Token) (c : Command) (tail skipped run : List Token) : Prop where
  split : ∃ later, tail = skipped ++ (run ++ later)
  reached : c.positional.length ≤ skipped.length
  begins : ∀ first before after, run = first :: (before ++ after) →
    subQueryToken? builtin (skipped ++ first :: before) c
      (secondBegun builtin (head :: (skipped ++ first :: before))) = some first

theorem found_of_one_slot {own run : List Token} (hown : own.length = c.positional.length)
    (hslots : c.subQuerySlots = 1) : Found head c (own ++ run) own run := by
  refine ⟨⟨[], by rw [List.append_nil]⟩, Nat.le_of_eq hown.symm, ?_⟩
  intro first before after _
  exact subQueryToken?_of_first hown (.inl hslots)

/-- The first of two sub-queries has the only command word behind that of the comparison. -/
theorem found_of_left {lead : Token} {left right : List Token}
    (hhead : builtin.isCommandName head.text = true) (hlead : lead.text = "dataset")
    (hown : c.positional.length = 1) (htwo : c.subQuerySlots = 2) (hleft : OneCommand left) :
    Found head c (lead :: (left ++ right)) [lead] left := by
  refine ⟨⟨right, rfl⟩, Nat.le_of_eq hown, ?_⟩
  rintro first before after rfl
  exact subQueryToken?_left hhead hlead hown htwo (Nat.le_of_eq hleft.of_append.countP_eq)

/-- The second one starts with the last of the three command words. -/
theorem found_of_right {lead : Token} {left right : List Token}
    (hhead : builtin.isCommandName head.text = true) (hlead : lead.text = "dataset")
    (hown : c.positional.length = 1) (htwo : c.subQuerySlots = 2) (hleft : OneCommand left)
    (hright : OneCommand right) :
    Found head c (lead :: (left ++ right)) (lead :: left) right := by
  refine ⟨⟨[], by simp⟩, by simp [hown], ?_⟩
  rintro first before after rfl
  exact subQueryToken?_right hhead hlead htwo hleft hright.of_append

/-- A query has a run of tokens for each sub-query, behind one token for each argument. -/
theorem exists_own (h : Heads builtin days nested head tail c args runs) :
    runs.length = min c.subQueryParams.length 2 ∧ ∃ own, tail = own ++ runs.flatten ∧
      (runs.flatten ≠ [] → own.length = c.positional.length) := by
  have hlength := @length_runs_divide builtin nested c (runSpan head tail).stop tail
    (by rw [h.divided])
  rw [h.divided] at hlength
  refine ⟨hlength, tail.take c.positional.length,
    by rw [h.flatten_runs, List.take_append_drop], ?_⟩
  intro hne
  rw [h.flatten_runs, Ne, List.drop_eq_nil_iff] at hne
  rw [List.length_take]
  omega

theorem exists_found_of_one {run : List Token} (hne : run ≠ [])
    (h : Heads builtin days nested head tail c args [run]) :
    c.subQueryParams ≠ [] ∧ ∃ own, Found head c tail own run := by
  obtain ⟨hlength, own, rfl, hown⟩ := exists_own h
  have hslots : c.subQuerySlots = 1 := by
    rw [Command.subQuerySlots]
    simp only [List.length_singleton] at hlength
    omega
  refine ⟨fun hnil => by simp [hnil] at hlength, own, ?_⟩
  rw [List.flatten_cons, List.flatten_nil, List.append_nil] at hown ⊢
  exact found_of_one_slot (hown hne) hslots

theorem exists_found_of_two {left right : List Token} (hleft : OneCommand left)
    (hright : OneCommand right) (h : Heads builtin days nested head tail c args [left, right]) :
    c.subQueryParams ≠ [] ∧
      ∃ lead, Found head c tail [lead] left ∧ Found head c tail (lead :: left) right := by
  obtain ⟨hmem, hanswers⟩ := resolve_builtin_iff.mp h.resolved
  obtain ⟨hname, -, hnext⟩ := Command.answers_iff.mp hanswers
  obtain ⟨hlength, own, rfl, hown⟩ := exists_own h
  -- The command compares two sub-queries, so the word of its kind is its only argument.
  have htwo : c.subQuerySlots = 2 := by
    have hmost := (Command.check_eq_ok_iff.mp (check_of_mem hmem)).2.2
    simp only [Command.subQuerySlots, List.length_cons, List.length_nil] at hmost hlength ⊢
    omega
  obtain ⟨-, hparams⟩ := builtin_two_slots c hmem htwo
  have hpositional : c.positional.length = 1 := by
    rw [(comparison_params hparams (by simp) (by decide)).1]
    rfl
  obtain ⟨lead, rfl⟩ :=
    List.length_eq_one_iff.mp ((hown (by simp [hleft.ne_nil])).trans hpositional)
  have hlead : lead.text = "dataset" := by
    have hword := discriminant_comparison hparams
    have hselects := hnext.resolve_left (by simp [hword])
    exact Option.some.inj (hselects.symm.trans hword)
  have hhead : builtin.isCommandName head.text = true := by
    rw [← hname]
    exact List.any_eq_true.mpr ⟨c, hmem, by simp⟩
  refine ⟨Command.subQueryParams_ne_nil htwo, lead, ?_⟩
  rw [List.flatten_cons, List.flatten_cons, List.flatten_nil, List.append_nil]
  exact ⟨found_of_left hhead hlead hpositional htwo hleft,
    found_of_right hhead hlead hpositional htwo hleft hright⟩

/-- Every sub-query is read from tokens that completion finds. -/
theorem exists_found (h : Heads builtin days false head tail c args runs) {subQueries : List Query}
    (hread : List.Forall₂ (fun run s => ofTokens builtin days lineLength true run = .ok s)
      runs subQueries) {sub : Query} (hsub : sub ∈ subQueries) :
    c.subQueryParams ≠ [] ∧ ∃ skipped run, Found head c tail skipped run ∧
      ofTokens builtin days lineLength true run = .ok sub := by
  have hone : ∀ run s, ofTokens builtin days lineLength true run = .ok s → OneCommand run :=
    fun run s hs => oneCommand_of_sub (Grammar.forms_nested_iff.mp ⟨s, hs⟩)
  obtain _ | ⟨left, _ | ⟨right, _ | ⟨third, more⟩⟩⟩ := runs
  · cases hread
    cases hsub
  · obtain ⟨s, _, hs, hnone, rfl⟩ := List.forall₂_cons_left_iff.mp hread
    cases hnone
    obtain rfl := List.mem_singleton.mp hsub
    obtain ⟨hslots, own, hfound⟩ := exists_found_of_one (hone left sub hs).ne_nil h
    exact ⟨hslots, own, left, hfound, hs⟩
  · obtain ⟨s, _, hs, hrest, rfl⟩ := List.forall₂_cons_left_iff.mp hread
    obtain ⟨t, _, ht, hnone, rfl⟩ := List.forall₂_cons_left_iff.mp hrest
    cases hnone
    obtain ⟨hslots, lead, hfirst, hsecond⟩ :=
      exists_found_of_two (hone left s hs) (hone right t ht) h
    rcases List.mem_cons.mp hsub with rfl | hsub
    · exact ⟨hslots, [lead], left, hfirst, hs⟩
    · obtain rfl := List.mem_singleton.mp hsub
      exact ⟨hslots, lead :: left, right, hsecond, ht⟩
  · have hlength := (exists_own h).1
    simp only [List.length_cons] at hlength
    omega

/-- Before an argument of a sub-query the innermost panel documents the parameter. -/
theorem documents_of_inner (htable : offer.table = builtin) (hquotes : EvenQuotes line)
    (hline : scan line = head :: tail) (h : Heads builtin days false head tail c args runs)
    (hslots : c.subQueryParams ≠ []) {skipped : List Token} {first : Token} {rest : List Token}
    {inner : Command} {own : List Argument} {below : List (List Token)}
    (hfound : Found head c tail skipped (first :: rest))
    (hinner : Heads builtin days true first rest inner own below) {a : Argument} {i : Nat}
    (ha : own[i]? = some a) :
    ∃ front back, line = front ++ back ∧ Text.width front = a.span.start ∧
      (ofLine offer false front).panel.innermost.Documents inner i := by
  obtain ⟨before, after, p, rfl, rfl, hstart, hp, -⟩ := exists_token_of_arg hinner ha
  obtain ⟨hlt, -⟩ := List.getElem?_eq_some_iff.mp hp
  obtain ⟨later, rfl⟩ := hfound.split
  obtain ⟨front, back, hsplit, hwidth, htyping, hscan⟩ :=
    @exists_typing line hquotes (head :: (skipped ++ first :: before)) (after ++ later) a.token
      (by rw [hline]; simp)
  refine ⟨front, back, hsplit, hwidth.trans hstart.symm, ?_⟩
  have hresolve : builtin.resolve head.text ((skipped ++ first :: before).head?.map Token.text)
      false = some c := by
    rw [← h.resolved]
    cases skipped <;> rfl
  obtain ⟨outer, pre, sub, -, hsub, hrest, haround⟩ :=
    exists_around htable htyping hscan hresolve hslots
      (Nat.le_trans hfound.reached (by simp))
      (by rw [pending_nil, List.append_nil]; exact hfound.begins first before _ rfl)
  rw [List.append_nil] at haround
  obtain ⟨word, finished, hfinished, rfl, rfl⟩ := List.map_eq_cons_iff.mp hrest
  obtain ⟨hmem, hanswers⟩ := resolve_builtin_iff.mp hinner.resolved
  obtain ⟨hname, hvisible, -⟩ := Command.answers_iff.mp hanswers
  have hbare := builtin_nested_bare inner hmem (inner.visibleIn_true ▸ hvisible)
  have hinnermost := documents_of_own htable hsub hfinished
    (hname ▸ resolve_of_bare hmem hbare hvisible _) (by simpa using hlt)
  rw [List.append_nil] at haround hinnermost
  rw [haround, around, Panel.innermost_nested]
  simpa using hinnermost

/-- An argument has the name and the kind of the parameter at its position. -/
theorem exists_param_of_arg (h : Heads builtin days nested head tail c args runs) {a : Argument}
    {i : Nat} (ha : args[i]? = some a) :
    ∃ p, c.params[i]? = some p ∧ p.name = a.name ∧ p.kind = a.kind := by
  obtain ⟨-, -, p, -, -, -, hp, hname, hkind⟩ := exists_token_of_arg h ha
  have hcheck := check_of_mem (resolve_builtin_iff.mp h.resolved).1
  obtain ⟨hlt, -⟩ := List.getElem?_eq_some_iff.mp hp
  refine ⟨p, ?_, hname, hkind⟩
  rw [Command.params_eq_append hcheck, List.getElem?_append_left hlt]
  exact hp

/-- A sub-query has no sub-queries of its own. -/
theorem eq_nil_of_nested {subQueries : List Query}
    (h : Heads builtin days true head tail c args runs)
    (hread : List.Forall₂ (fun run s => ofTokens builtin days lineLength true run = .ok s)
      runs subQueries) : subQueries = [] := by
  obtain ⟨hmem, hanswers⟩ := resolve_builtin_iff.mp h.resolved
  obtain ⟨-, hvisible, -⟩ := Command.answers_iff.mp hanswers
  have hflat := builtin_nested_flat c hmem (c.visibleIn_true ▸ hvisible)
  have hdivided := h.divided
  rw [divide_of_no_slot hflat] at hdivided
  obtain rfl : [] = runs := congrArg Division.runs hdivided
  exact List.forall₂_nil_left_iff.mp hread

/-- Where a line that holds a query is cut before an argument of the query or of one inside it, the
innermost panel documents the command of that query and highlights the parameter that the argument
is bound to. -/
theorem documents_of_parse {line : String} {q s : Query} {a : Argument} {i : Nat}
    (h : Query.parse builtin days false line = .ok q) (hquotes : EvenQuotes line.toList)
    (hs : s ∈ q.nodes) (ha : s.args[i]? = some a) (rows dates : List String) (cursor : Nat) :
    ∃ front back panel c p, line.toList = front ++ back ∧ Text.width front = a.span.start ∧
      (Suggestion.after ⟨builtin, rows, dates⟩ false cursor front (.key .other)).panel? =
        some panel ∧
      (c ∈ builtin.commands ∧ c.name = s.command ∧ c.discriminant = s.variant) ∧
      (c.params[i]? = some p ∧ p.name = a.name ∧ p.kind = a.kind) ∧
      panel.innermost.Documents c i := by
  rw [Query.parse] at h
  cases hline : tokenize line with
  | nil =>
    rw [hline] at h
    exact absurd h ofTokens_nil_ne_ok
  | cons head tail =>
    rw [hline] at h
    obtain ⟨c, args, runs, subQueries, hheads, hread, rfl⟩ := ofTokens_cons_eq_ok_iff.mp h
    rcases mem_nodes_iff.mp hs with rfl | ⟨sub, hsub, hs⟩
    · obtain ⟨front, back, hsplit, hwidth, hpanel⟩ :=
        @documents_of_outer ⟨builtin, rows, dates⟩ _ _ _ _ _ _ _ rfl hquotes hline hheads _ _ ha
      obtain ⟨p, hp⟩ := exists_param_of_arg hheads ha
      exact ⟨front, back, _, c, p, hsplit, hwidth, rfl,
        ⟨(resolve_builtin_iff.mp hheads.resolved).1, rfl, rfl⟩, hp, hpanel.select 0⟩
    · obtain ⟨hslots, skipped, run, hfound, hrun⟩ := exists_found hheads hread hsub
      cases run with
      | nil => exact absurd hrun ofTokens_nil_ne_ok
      | cons first rest =>
        obtain ⟨inner, own, below, subs, hinner, hbelow, rfl⟩ := ofTokens_cons_eq_ok_iff.mp hrun
        obtain rfl := eq_nil_of_nested hinner hbelow
        rcases mem_nodes_iff.mp hs with rfl | ⟨deeper, hdeeper, -⟩
        swap
        · cases hdeeper
        obtain ⟨front, back, hsplit, hwidth, hpanel⟩ :=
          @documents_of_inner ⟨builtin, rows, dates⟩ _ _ _ _ _ _ _ rfl hquotes hline hheads hslots
            _ _ _ _ _ _ hfound hinner _ _ ha
        obtain ⟨p, hp⟩ := exists_param_of_arg hinner ha
        exact ⟨front, back, _, inner, p, hsplit, hwidth, rfl,
          ⟨(resolve_builtin_iff.mp hinner.resolved).1, rfl, rfl⟩, hp, hpanel.select 0⟩

theorem documents_of_second_subQuery :
    ∃ q s a, Query.parse builtin 3 false "compare dataset min `a` max `b`" = .ok q ∧
      s ∈ q.nodes ∧ s.args[0]? = some a ∧ a.raw = "`b`" ∧
      ∃ front back panel c p, "compare dataset min `a` max `b`".toList = front ++ back ∧
        Text.width front = a.span.start ∧
        (Suggestion.after ⟨builtin, ["a", "b"], []⟩ false 0 front (.key .other)).panel? =
          some panel ∧
        (c ∈ builtin.commands ∧ c.name = s.command ∧ c.discriminant = s.variant) ∧
        (c.params[0]? = some p ∧ p.name = a.name ∧ p.kind = a.kind) ∧
        panel.innermost.Documents c 0 := by
  have hline : tokenize "compare dataset min `a` max `b`" =
      [⟨"compare", 0⟩, ⟨"dataset", 8⟩, ⟨"min", 16⟩, ⟨"`a`", 20⟩, ⟨"max", 24⟩, ⟨"`b`", 28⟩] := by
    decide +kernel
  have hquotes : EvenQuotes "compare dataset min `a` max `b`".toList := by
    have htokens : ∀ t ∈ tokenize "compare dataset min `a` max `b`",
        Even (t.text.toList.count '"') := by
      rw [hline]
      decide
    exact htokens
  have hmin : Grammar.Sub 3 ["min", "`a`"] := .aggregate (by decide)
    (.whole ⟨by decide +kernel, by decide +kernel, by decide +kernel⟩)
  have hmax : Grammar.Sub 3 ["max", "`b`"] := .aggregate (by decide)
    (.whole ⟨by decide +kernel, by decide +kernel, by decide +kernel⟩)
  obtain ⟨q, s, t, hq, hsubs, -, ht⟩ := @Grammar.ofTokens_dataset 3 31 ⟨"compare", 0⟩
    ⟨"dataset", 8⟩ [⟨"min", 16⟩, ⟨"`a`", 20⟩] [⟨"max", 24⟩, ⟨"`b`", 28⟩] rfl rfl hmin hmax
  have hparse : Query.parse builtin 3 false "compare dataset min `a` max `b`" = .ok q := by
    rw [Query.parse, hline]
    exact hq
  have hnode : t ∈ q.nodes :=
    mem_nodes_iff.mpr (.inr ⟨t, by simp [hsubs], mem_nodes_iff.mpr (.inl rfl)⟩)
  obtain ⟨c, args, runs, subQueries, hheads, -, rfl⟩ := ofTokens_cons_eq_ok_iff.mp ht
  obtain rfl : builtin.commands[4] = c := Option.some.inj hheads.resolved
  obtain ⟨a, rfl, htoken⟩ :=
    List.map_eq_singleton_iff.mp (Argument.map_token_of_bindAll hheads.bound).1
  exact ⟨q, _, a, hparse, hnode, rfl, congrArg Token.text htoken,
    documents_of_parse hparse hquotes hnode rfl ["a", "b"] [] 0⟩

end Completion

end Almanac
