import Almanac.Proofs.Query.Single
import Almanac.Proofs.Table.Builtin
import Almanac.Proofs.Table.RoundTrip

/-!
Which command is selected by the text that is inserted for a command. The text has the name and
the discriminant, so the command is found if these are the tokens of the text and if no overload
without a discriminant comes before it, which would answer to every word. A table is not asked for
either of the two when it is read. The built-in commands are like that, and each of them is
selected by its own text.
-/

namespace Almanac

/-- An element is found if none of those before it is. -/
theorem find?_eq_some_iff_takeWhile {α : Type} [DecidableEq α] {p : α → Bool} {x : α}
    {xs : List α} (hx : x ∈ xs) :
    xs.find? p = some x ↔ p x = true ∧ ∀ y ∈ xs.takeWhile (· ≠ x), p y = false := by
  induction xs with
  | nil => cases hx
  | cons y xs ih =>
    by_cases hyx : y = x
    · subst hyx
      cases hy : p y with
      | true => simp [hy]
      | false =>
        refine iff_of_false (fun hfound => ?_) (by simp)
        have hholds := List.find?_some hfound
        simp [hy] at hholds
    · have hmem : x ∈ xs := (List.mem_cons.mp hx).resolve_left (Ne.symm hyx)
      cases hy : p y with
      | true => simp [hy, hyx]
      | false => simp [hy, hyx, ih hmem]

theorem takeWhile_ne_subset {α : Type} [DecidableEq α] {x y : α} {xs : List α}
    (h : x ∈ xs.takeWhile (· ≠ y)) : xs.takeWhile (· ≠ x) ⊆ xs.takeWhile (· ≠ y) := by
  induction xs with
  | nil => cases h
  | cons z xs ih =>
    by_cases hzy : z = y
    · simp [hzy] at h
    · by_cases hzx : z = x
      · simp [hzx]
      · have hmem : x ∈ xs.takeWhile (· ≠ y) := by simpa [hzy, Ne.symm hzx] using h
        simpa [hzy, hzx] using List.Subset.trans (ih hmem) (List.subset_cons_self _ _)

namespace Command

variable {c : Command}

/-- The words of the command are the tokens of the text that is inserted for it. -/
structure Readable (c : Command) : Prop where
  name : Token.IsSingle c.name
  word : ∀ word ∈ c.discriminant, Token.opensRun c.name.toList = false ∧ Token.IsSingle word

instance (c : Command) : Decidable c.Readable :=
  decidable_of_iff (Token.IsSingle c.name ∧
      ∀ word ∈ c.discriminant, Token.opensRun c.name.toList = false ∧ Token.IsSingle word)
    ⟨fun ⟨name, word⟩ => ⟨name, word⟩, fun ⟨name, word⟩ => ⟨name, word⟩⟩

theorem Readable.map_text_tokenize (h : c.Readable) :
    (tokenize c.insertion).map Token.text = c.name :: c.discriminant.toList := by
  rw [insertion]
  cases hword : c.discriminant with
  | none => rw [tokenize, h.name.scan_eq]; rfl
  | some word =>
    obtain ⟨hclosed, hsingle⟩ := h.word word hword
    rw [Token.tokenize_pair h.name hclosed hsingle]
    rfl

/-- The first token and, where there is a discriminant, the second one tell it. -/
theorem readable_of_tokens {head : Token} {tail : List Token}
    (htokens : tokenize c.insertion = head :: tail) (hname : head.text = c.name)
    (hnext : ∀ word ∈ c.discriminant, tail.head?.map Token.text = some word) : c.Readable := by
  have hsingle : ∀ t ∈ head :: tail, Token.IsSingle t.text := by
    rw [← htokens]
    exact fun t ht => Token.isSingle_of_mem ht
  rw [List.forall_mem_cons] at hsingle
  refine ⟨hname ▸ hsingle.1, fun word hword => ?_⟩
  obtain ⟨next, hhead, rfl⟩ := Option.map_eq_some_iff.mp (hnext word hword)
  obtain ⟨rest, rfl⟩ := List.head?_eq_some_iff.mp hhead
  exact ⟨hname ▸ Token.opensRun_of_scan htokens, hsingle.2 next List.mem_cons_self⟩

theorem readable_iff :
    c.Readable ↔ (tokenize c.insertion).map Token.text = c.name :: c.discriminant.toList := by
  refine ⟨Readable.map_text_tokenize, fun h => ?_⟩
  obtain ⟨head, tail, htokens, hname, htail⟩ := List.map_eq_cons_iff.mp h
  refine readable_of_tokens htokens hname fun word hword => ?_
  rw [← List.head?_map, htail, Option.mem_def.mp hword]
  rfl

end Command

namespace CommandTable

variable {table : CommandTable} {c d : Command}

/-- The command that the first two tokens of a line select outside of sub-queries. -/
def selected? (table : CommandTable) (line : String) : Option Command :=
  match tokenize line with
  | [] => none
  | head :: tail => table.resolve head.text (tail.head?.map Token.text) false

def before (table : CommandTable) (c : Command) : List Command :=
  table.commands.takeWhile (· ≠ c)

theorem selected?_of_readable (h : c.Readable) :
    table.selected? c.insertion = table.resolve c.name c.discriminant false := by
  have htexts := h.map_text_tokenize
  rw [selected?]
  cases htokens : tokenize c.insertion with
  | nil => simp [htokens] at htexts
  | cons head tail =>
    rw [htokens, List.map_cons, List.cons.injEq] at htexts
    have hnext : tail.head?.map Token.text = c.discriminant := by
      rw [← List.head?_map, htexts.2]
      cases c.discriminant <;> rfl
    simp only [htexts.1, hnext]

theorem readable_of_selected? (h : table.selected? c.insertion = some c) : c.Readable := by
  rw [selected?] at h
  split at h
  · cases h
  · rename_i head tail htokens
    obtain ⟨-, -, hname, hnext⟩ := of_resolve_eq_some h
    refine Command.readable_of_tokens htokens hname.symm fun word hword => ?_
    rw [Option.mem_def.mp hword] at hnext
    simpa [eq_comm] using hnext

theorem eq_of_key_eq (hsound : table.check = .ok ()) (hc : c ∈ table.commands)
    (hd : d ∈ table.commands) (hkey : d.key = c.key) : d = c :=
  List.inj_on_of_nodup_map ((check_eq_ok_iff table).mp hsound).2 hd hc hkey

theorem mem_before (h : d ∈ table.before c) : d ∈ table.commands ∧ d ≠ c :=
  ⟨(List.takeWhile_prefix _).subset h, by simpa using List.mem_takeWhile_imp h⟩

/-- Of the commands before it only one without a discriminant answers to the words of another. -/
theorem answers_of_before (hsound : table.check = .ok ()) (hc : c ∈ table.commands)
    (hd : d ∈ table.before c) :
    d.answers c.name c.discriminant false = true ↔ d.key = (c.name, none) := by
  obtain ⟨hmem, hne⟩ := mem_before hd
  rw [Command.answers_iff, Command.visibleIn_false, Command.key, Prod.mk.injEq]
  constructor
  · rintro ⟨hname, -, hbare | hword⟩
    · exact ⟨hname, hbare⟩
    · exact absurd (eq_of_key_eq hsound hc hmem (Prod.ext hname hword)) hne
  · rintro ⟨hname, hbare⟩
    exact ⟨hname, rfl, .inl hbare⟩

theorem resolve_words_iff (hsound : table.check = .ok ()) (hc : c ∈ table.commands) :
    table.resolve c.name c.discriminant false = some c ↔
      ∀ d ∈ table.before c, d.key ≠ (c.name, none) := by
  have hself : c.answers c.name c.discriminant false = true :=
    Command.answers_iff.mpr ⟨rfl, c.visibleIn_false, .inr rfl⟩
  rw [resolve_eq_find? ((check_eq_ok_iff table).mp hsound).2, find?_eq_some_iff_takeWhile hc,
    and_iff_right hself]
  refine forall₂_congr fun d hd => ?_
  rw [← Bool.not_eq_true, answers_of_before hsound hc hd]

/-- The text that is inserted for a command selects it, if the words of the command are the tokens
of the text and no overload without a discriminant comes before it. -/
theorem selected?_insertion_eq_some_iff (hsound : table.check = .ok ())
    (hc : c ∈ table.commands) :
    table.selected? c.insertion = some c ↔
      c.Readable ∧ ∀ d ∈ table.before c, d.key ≠ (c.name, none) := by
  constructor
  · intro h
    have hreadable := readable_of_selected? h
    rw [selected?_of_readable hreadable, resolve_words_iff hsound hc] at h
    exact ⟨hreadable, h⟩
  · rintro ⟨hreadable, hfirst⟩
    rw [selected?_of_readable hreadable, resolve_words_iff hsound hc]
    exact hfirst

/-- An overload without a discriminant is selected in place of those that come after it. -/
theorem selected?_of_bare_before (hsound : table.check = .ok ()) (hc : c ∈ table.commands)
    (hreadable : c.Readable) (hd : d ∈ table.before c) (hbare : d.key = (c.name, none)) :
    table.selected? c.insertion = some d := by
  have hmem := (mem_before hd).1
  rw [selected?_of_readable hreadable, resolve_eq_find? ((check_eq_ok_iff table).mp hsound).2,
    find?_eq_some_iff_takeWhile hmem]
  refine ⟨(answers_of_before hsound hc hd).mpr hbare, fun e he => ?_⟩
  have hbefore : e ∈ table.before c := takeWhile_ne_subset hd he
  rw [← Bool.not_eq_true, answers_of_before hsound hc hbefore]
  intro hkey
  exact (mem_before he).2 (eq_of_key_eq hsound hmem (mem_before hbefore).1 (hkey.trans hbare.symm))

theorem check_of_parse {text : String} (h : parse text = .ok table) : table.check = .ok () := by
  rw [parse] at h
  split at h
  · cases h
  · exact (ofJson_eq_ok_iff.mp h).2.2

/-- The words of the built-in commands are tokens, and no overload without a discriminant comes
before others. -/
theorem selected?_insertion_builtin (hc : c ∈ builtin.commands) :
    builtin.selected? c.insertion = some c := by
  have hwords : ∀ c ∈ builtin.commands,
      c.Readable ∧ ∀ d ∈ builtin.before c, d.key ≠ (c.name, none) := by
    decide
  exact (selected?_insertion_eq_some_iff builtin_sound hc).mpr (hwords c hc)

/-- In a table that was read, the text that is inserted for a command selects it exactly if the
words of the command are the tokens of the text and no overload without a discriminant comes before
it. If one does, then that one is selected. -/
theorem selected?_insertion_iff {text : String} {table : CommandTable}
    (hparse : parse text = .ok table) {c : Command} (hc : c ∈ table.commands) :
    (table.selected? c.insertion = some c ↔
        c.Readable ∧ ∀ d ∈ table.before c, d.key ≠ (c.name, none)) ∧
      (c.Readable → ∀ d ∈ table.before c, d.key = (c.name, none) →
        table.selected? c.insertion = some d) := by
  have hsound := check_of_parse hparse
  exact ⟨selected?_insertion_eq_some_iff hsound hc,
    fun hreadable d hd hbare => selected?_of_bare_before hsound hc hreadable hd hbare⟩

def allFirst : CommandTable := .ofCommands
  [⟨"get", "", false, [.leading "mode" "all"]⟩, ⟨"get", "", false, [.required "row" .row]⟩]

theorem selected?_insertion_allFirst :
    ∃ c ∈ allFirst.commands, c.insertion = "get all" ∧
      parse allFirst.toPrettyJson = .ok allFirst ∧ allFirst.selected? c.insertion = some c := by
  have hparse : parse allFirst.toPrettyJson = .ok allFirst :=
    parse_toPrettyJson_iff.mpr ⟨rfl, by decide⟩
  have hmem : (⟨"get", "", false, [.leading "mode" "all"]⟩ : Command) ∈ allFirst.commands := by
    decide
  exact ⟨_, hmem, rfl, hparse, (selected?_insertion_iff hparse hmem).1.mpr (by decide)⟩

def allLast : CommandTable := .ofCommands allFirst.commands.reverse

def ofWord (name word : String) : CommandTable :=
  .ofCommands [⟨name, "", false, [.leading "mode" word]⟩]

/-- The overload for other words comes first; or the name or the word is not one token, or the name
opens a quoted run that the word falls into, and then nothing is selected. -/
theorem not_selected?_insertion :
    (parse allLast.toPrettyJson = .ok allLast ∧
        (∃ c ∈ allLast.commands, c.insertion = "get all" ∧ allLast.selected? "get all" ≠ some c) ∧
        allLast.selected? "get all" = allLast.commands[0]?) ∧
      (parse (ofWord "get all" "row").toPrettyJson = .ok (ofWord "get all" "row") ∧
        (ofWord "get all" "row").selected? "get all row" = none) ∧
      (parse (ofWord "get" "all rows").toPrettyJson = .ok (ofWord "get" "all rows") ∧
        (ofWord "get" "all rows").selected? "get all rows" = none) ∧
      (parse (ofWord "\"get" "all").toPrettyJson = .ok (ofWord "\"get" "all") ∧
        (ofWord "\"get" "all").selected? "\"get all" = none) := by
  refine ⟨⟨parse_toPrettyJson_iff.mpr ⟨rfl, by decide⟩, ?_⟩,
    ⟨parse_toPrettyJson_iff.mpr ⟨rfl, by decide⟩, ?_⟩,
    ⟨parse_toPrettyJson_iff.mpr ⟨rfl, by decide⟩, ?_⟩,
    ⟨parse_toPrettyJson_iff.mpr ⟨rfl, by decide⟩, ?_⟩⟩
  all_goals decide +kernel

end CommandTable

end Almanac
