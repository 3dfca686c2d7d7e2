import Almanac.Proofs.Query.Parsing
import Almanac.Proofs.Table.Builtin
import Almanac.Proofs.Table.Params

/-!
What is said about a line whose first tokens select no command. In a sound table nothing is
selected exactly if every overload of the name that may be used has a discriminant and none of
them follows the name. So there are three cases. No command has the name, or there are such
commands but none may be used in the nesting, or those that may be used all have a discriminant.
Each case has a message of its own, and the last one lists the discriminants.
-/

namespace Almanac

namespace CommandTable

variable {table : CommandTable} {name : String} {next : Option String} {nested : Bool}

/-- The words that tell the overloads of a name apart that may be used in the nesting, in the
order of the table, where none of them is the given token. -/
structure Alternatives (table : CommandTable) (name : String) (nested : Bool)
    (next : Option String) (words : List String) : Prop where
  exactly : (table.visibleOverloads name nested).map Command.discriminant = words.map some
  others : ∀ given ∈ next, given ∉ words

theorem Alternatives.words_eq {words : List String}
    (h : table.Alternatives name nested next words) :
    (table.visibleOverloads name nested).filterMap Command.discriminant = words := by
  calc
    _ = ((table.visibleOverloads name nested).map Command.discriminant).filterMap id := by
        rw [List.filterMap_map, Function.id_comp]
    _ = words := by rw [h.exactly, List.filterMap_map, Function.id_comp, List.filterMap_some]

/-- A name selects nothing exactly if all of its overloads that may be used have a discriminant
and none of them follows it. -/
theorem resolve_eq_none_iff (hsound : table.check = .ok ()) :
    table.resolve name next nested = none ↔
      ∃ words, table.Alternatives name nested next words := by
  rw [resolve_eq_find?_visible hsound, List.find?_eq_none]
  simp only [Bool.or_eq_true, decide_eq_true_eq, not_or]
  constructor
  · intro hnone
    refine ⟨(table.visibleOverloads name nested).filterMap Command.discriminant, ?_, ?_⟩
    · rw [List.map_filterMap, ← List.filterMap_eq_map]
      refine List.filterMap_congr fun c hc => ?_
      obtain ⟨word, hword⟩ := Option.ne_none_iff_exists'.mp (hnone c hc).1
      rw [hword]
      simp [hword]
    · intro given hgiven hmem
      obtain ⟨c, hc, hword⟩ := List.mem_filterMap.mp hmem
      exact (hnone c hc).2 (hword.trans hgiven.symm)
  · rintro ⟨words, hwords⟩ c hc
    obtain ⟨word, hword, hdiscriminant⟩ : ∃ word ∈ words, some word = c.discriminant := by
      rw [← List.mem_map, ← hwords.exactly]
      exact List.mem_map_of_mem hc
    refine ⟨by simp [← hdiscriminant], fun hnext => ?_⟩
    exact hwords.others word (hnext.symm.trans hdiscriminant.symm) hword

end CommandTable

namespace Query

open CommandTable

variable {table : CommandTable} {nested : Bool} {head : Token} {next : Option Token}
  {words : List String}

/-- How words are enumerated as alternatives: commas between them, and an "or" before the last. -/
inductive Enumerates : List String → String → Prop where
  | one (word : String) : Enumerates [word] word
  | more {front : List String} (last : String) (hfront : front ≠ []) :
      Enumerates (front ++ [last]) (", ".intercalate front ++ " or " ++ last)

theorem alternatives_concat {front : List String} (hfront : front ≠ []) (last : String) :
    alternatives (front ++ [last]) = ", ".intercalate front ++ " or " ++ last := by
  obtain ⟨first, rest, rfl⟩ := List.exists_cons_of_ne_nil hfront
  obtain ⟨second, more, hmore⟩ : ∃ second more, rest ++ [last] = second :: more :=
    List.exists_cons_of_ne_nil (by simp)
  have hmany : alternatives (first :: second :: more) =
      ", ".intercalate (first :: second :: more).dropLast ++ " or " ++
        (first :: second :: more).getLastD "" := rfl
  rw [← hmore, ← List.cons_append, List.dropLast_concat] at hmany
  rw [hmany, List.getLastD_eq_getLast?, List.getLast?_concat, Option.getD_some]

theorem enumerates_alternatives (hne : words ≠ []) : Enumerates words (alternatives words) := by
  obtain ⟨front, last, rfl⟩ := (List.eq_nil_or_concat words).resolve_left hne
  rw [List.concat_eq_append]
  by_cases hfront : front = []
  · rw [hfront]
    exact .one last
  · rw [alternatives_concat hfront]
    exact .more last hfront

/-- There is one way to enumerate words. -/
theorem Enumerates.eq_alternatives {text : String} (h : Enumerates words text) :
    text = alternatives words := by
  cases h with
  | one => rfl
  | more last hfront => exact (alternatives_concat hfront last).symm

def given (nested : Bool) (head : Token) : String :=
  "Given " ++ (if nested then "sub-query" else "query") ++ " " ++ head.text

def listing (nested : Bool) (head : Token) (next : Option Token) (param expected : String) :
    String :=
  match next with
  | some token =>
    given nested head ++ " has no " ++ param ++ " " ++ token.text ++ " (expected " ++ expected ++
      ")."
  | none => given nested head ++ " is missing its " ++ param ++ " (expected " ++ expected ++ ")."

theorem message_of_absent (h : ∀ c ∈ table.commands, c.name ≠ head.text) :
    (unresolved table nested head next).toDiagnostic.message =
      given nested head ++ " doesn't exist." := by
  have hnone : table.overloads head.text = [] := by
    simpa [overloads, List.filter_eq_nil_iff] using h
  simp only [unresolved, visibleOverloads, hnone, List.filter_nil, List.isEmpty_nil, if_true]
  rfl

theorem message_of_hidden (hnamed : ∃ c ∈ table.commands, c.name = head.text)
    (hhidden : ∀ c ∈ table.commands, c.name = head.text → c.visibleIn nested = false) :
    (unresolved table nested head next).toDiagnostic.message =
      given nested head ++ " cannot be used as a sub-query." := by
  have hnone : table.visibleOverloads head.text nested = [] := by
    rw [List.eq_nil_iff_forall_not_mem]
    intro c hc
    obtain ⟨hmem, hname, hvisible⟩ := mem_visibleOverloads_iff.mp hc
    simp [hhidden c hmem hname] at hvisible
  have hsome : (table.overloads head.text).isEmpty = false := by
    simpa [overloads] using hnamed
  simp only [unresolved, hnone, hsome, Bool.false_eq_true, if_false]
  rfl

/-- The discriminants are listed, called what the leading parameter of the first overload is. -/
theorem message_of_worded (hsound : table.check = .ok ())
    (hnone : table.resolve head.text (next.map Token.text) nested = none)
    (hvisible : ∃ c ∈ table.commands, c.name = head.text ∧ c.visibleIn nested = true) :
    ∃ words expected first param, words ≠ [] ∧
      (table.visibleOverloads head.text nested).map Command.discriminant = words.map some ∧
      (∀ token ∈ next, token.text ∉ words) ∧ Enumerates words expected ∧
      (table.visibleOverloads head.text nested).head? = some first ∧
      first.params.head? = some param ∧ param.kind = .enum ∧
      (unresolved table nested head next).toDiagnostic.message =
        listing nested head next param.name expected := by
  obtain ⟨words, hwords⟩ := (resolve_eq_none_iff hsound).mp hnone
  obtain ⟨c, hc, hname, hshown⟩ := hvisible
  obtain ⟨first, more, hoverloads⟩ := List.exists_cons_of_ne_nil
    (List.ne_nil_of_mem (mem_visibleOverloads_iff.mpr ⟨hc, hname, hshown⟩))
  obtain ⟨word, rest, rfl, hword⟩ : ∃ word rest, words = word :: rest ∧
      first.discriminant = some word := by
    have hexactly := hwords.exactly
    rw [hoverloads, List.map_cons] at hexactly
    cases words with
    | nil => cases hexactly
    | cons word rest => exact ⟨word, rest, rfl, (List.cons.inj hexactly).1⟩
  obtain ⟨param, params, hparams, hkind, _⟩ := Command.discriminant_eq_some_iff.mp hword
  refine ⟨word :: rest, _, first, param, List.cons_ne_nil _ _, hwords.exactly,
    fun token htoken => ?_, enumerates_alternatives (List.cons_ne_nil _ _),
    by rw [hoverloads]; rfl, by rw [hparams]; rfl, hkind, ?_⟩
  · exact hwords.others token.text (by rw [Option.mem_def.mp htoken]; rfl)
  · have hlisted := hwords.words_eq
    rw [hoverloads] at hlisted
    simp only [unresolved, hoverloads, hparams, hkind, if_true, hlisted]
    cases next <;> rfl

theorem id_unresolved :
    (unresolved table nested head next).toDiagnostic.id = Diagnostic.Code.unknownCommand.id := by
  unfold unresolved
  split
  · split <;> rfl
  · cases next <;> rfl

theorem absent_ne_hidden :
    given nested head ++ " doesn't exist." ≠
      given nested head ++ " cannot be used as a sub-query." := by
  rw [Ne, String.append_right_inj]
  decide

theorem listing_ne_absent {param expected : String} :
    listing nested head next param expected ≠ given nested head ++ " doesn't exist." := by
  cases next <;>
    simp [listing, String.append_assoc, ← String.toList_inj]

theorem listing_ne_hidden {param expected : String} :
    listing nested head next param expected ≠
      given nested head ++ " cannot be used as a sub-query." := by
  cases next <;>
    simp [listing, String.append_assoc, ← String.toList_inj]

/-- If the first tokens of a line select no command, then the message says that the command does
not exist exactly if none has the name, and that it cannot be nested exactly if commands have the
name and none of them may be. Otherwise it lists the discriminants of the overloads that may be
used, one at least and none of them the token that follows, and it has that token if there is
one. -/
theorem message_of_unresolved {table : CommandTable} (hsound : table.check = .ok ()) (days : Nat)
    {nested : Bool} {line : String} {head : Token} {tail : List Token}
    (htokens : tokenize line = head :: tail)
    (hnone : table.resolve head.text (tail.head?.map Token.text) nested = none) :
    ∃ fault, parse table days nested line = .error fault ∧
      fault.toDiagnostic.id = Diagnostic.Code.unknownCommand.id ∧
      (fault.toDiagnostic.message = given nested head ++ " doesn't exist." ↔
        ∀ c ∈ table.commands, c.name ≠ head.text) ∧
      (fault.toDiagnostic.message = given nested head ++ " cannot be used as a sub-query." ↔
        (∃ c ∈ table.commands, c.name = head.text) ∧
          ∀ c ∈ table.commands, c.name = head.text → c.visibleIn nested = false) ∧
      ((∃ c ∈ table.commands, c.name = head.text ∧ c.visibleIn nested = true) →
        ∃ words expected first param, words ≠ [] ∧
          (table.commands.filter fun c => c.name = head.text ∧ c.visibleIn nested = true).map
            Command.discriminant = words.map some ∧
          (∀ next ∈ tail.head?, next.text ∉ words) ∧ Enumerates words expected ∧
          table.commands.find? (fun c => c.name = head.text ∧ c.visibleIn nested = true) =
            some first ∧
          first.params.head? = some param ∧ param.kind = .enum ∧
          fault.toDiagnostic.message =
            listing nested head tail.head? param.name expected) := by
  have hparse : parse table days nested line =
      .error (unresolved table nested head tail.head?) := by
    rw [parse, htokens, ofTokens_cons, hnone]
  refine ⟨_, hparse, id_unresolved, ?_⟩
  by_cases hnamed : ∃ c ∈ table.commands, c.name = head.text
  · by_cases hvisible : ∃ c ∈ table.commands, c.name = head.text ∧ c.visibleIn nested = true
    · obtain ⟨_, _, _, _, _, _, _, _, _, _, _, hmessage⟩ :=
        message_of_worded hsound hnone hvisible
      obtain ⟨c, hc, hname, hshown⟩ := hvisible
      refine ⟨iff_of_false ?_ fun habsent => habsent c hc hname,
        iff_of_false ?_ fun hhidden => ?_, fun hshown => ?_⟩
      · exact hmessage ▸ listing_ne_absent
      · exact hmessage ▸ listing_ne_hidden
      · simp [hhidden.2 c hc hname] at hshown
      · simpa only [visibleOverloads_eq_filter, List.head?_filter] using
          message_of_worded hsound hnone hshown
    · have hhidden : ∀ c ∈ table.commands, c.name = head.text → c.visibleIn nested = false :=
        fun c hc hname => Bool.eq_false_iff.mpr fun hshown => hvisible ⟨c, hc, hname, hshown⟩
      rw [message_of_hidden hnamed hhidden]
      refine ⟨iff_of_false absent_ne_hidden.symm fun habsent => ?_, iff_of_true rfl
        ⟨hnamed, hhidden⟩, fun h => absurd h hvisible⟩
      obtain ⟨c, hc, hname⟩ := hnamed
      exact habsent c hc hname
  · have habsent : ∀ c ∈ table.commands, c.name ≠ head.text :=
      fun c hc hname => hnamed ⟨c, hc, hname⟩
    rw [message_of_absent habsent]
    refine ⟨iff_of_true rfl habsent, iff_of_false absent_ne_hidden fun h => hnamed h.1, ?_⟩
    rintro ⟨c, hc, hname, _⟩
    exact absurd hname (habsent c hc)

theorem message_of_unresolved_moon :
    ∃ fault, parse builtin 0 false "compare moon 1" = .error fault ∧
      fault.toDiagnostic.message = "Given query compare has no location type moon " ++
        "(expected coord, dataset, zip or city)." := by
  have htokens : tokenize "compare moon 1" = [⟨"compare", 0⟩, ⟨"moon", 8⟩, ⟨"1", 13⟩] := by
    decide +kernel
  obtain ⟨fault, hfault, _, _, _, hlists⟩ :=
    message_of_unresolved builtin_sound 0 htokens (show builtin.resolve _ _ false = none by decide)
  refine ⟨fault, hfault, ?_⟩
  obtain ⟨words, expected, first, param, _, hwords, _, htext, hfirst, hparam, _, hmessage⟩ :=
    hlists (by decide)
  have hexpected : words = ["coord", "dataset", "zip", "city"] := by
    refine (List.map_inj_right fun _ _ => Option.some.inj).mp (hwords.symm.trans ?_)
    decide
  have hname : param.name = "location type" := by
    have hlead : builtin.commands.find? (fun c => c.name = "compare" ∧ c.visibleIn false = true) =
        builtin.commands[8]? := by decide
    obtain rfl := Option.some.inj (hfirst.symm.trans hlead)
    exact (congrArg Param.name (Option.some.inj hparam)).symm
  rw [hmessage, hname, htext.eq_alternatives, hexpected]
  decide

end Query

end Almanac
