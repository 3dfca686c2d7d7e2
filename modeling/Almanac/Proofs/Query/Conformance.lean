import Almanac.Proofs.Query.Reading
import Almanac.Proofs.Query.Tree
import Almanac.Proofs.Table.Params
import Almanac.Table.Builtin

/-!
What a query has to do with the table that it was read for. Each of its nodes calls a command of
the table: the arguments take the first parameters of the command in their order, every value is
the one that the text stands for, and there is a sub-query for each place. The least number of
arguments is a count. It gives each required parameter its argument where optional parameters come
last or sub-queries follow, but not where a required parameter comes after an optional one.
-/

namespace Almanac

namespace Argument

def signature (a : Argument) : String × ParamKind := (a.name, a.kind)

end Argument

def Param.signature (p : Param) : String × ParamKind := (p.name, p.kind)

namespace Argument

variable {days : Nat} {command : String} {nested : Bool}

theorem map_signature_of_bindAll {params : List Param} {tokens : List Token}
    {args : List Argument} (h : bindAll days command nested params tokens = .ok args) :
    args.map signature = (params.take tokens.length).map Param.signature := by
  induction params generalizing tokens args with
  | nil =>
    obtain rfl : args = [] := by simpa using bindAll_eq_ok_iff.mp h
    simp
  | cons param params ih =>
    cases tokens with
    | nil =>
      obtain rfl : args = [] := by simpa using bindAll_eq_ok_iff.mp h
      simp
    | cons token tokens =>
      have hbound := bindAll_eq_ok_iff.mp h
      rw [List.zip_cons_cons, List.forall₂_cons_left_iff] at hbound
      obtain ⟨a, rest, ha, hrest, rfl⟩ := hbound
      obtain ⟨value, _, rfl⟩ := bind_eq_ok_iff.mp ha
      rw [List.map_cons, ih (bindAll_eq_ok_iff.mpr hrest)]
      rfl

theorem length_of_bindAll {params : List Param} {tokens : List Token} {args : List Argument}
    (h : bindAll days command nested params tokens = .ok args) :
    args.length = min tokens.length params.length := by
  have hlength := congrArg List.length (map_signature_of_bindAll h)
  simpa using hlength

/-- The argument of a leading enum parameter is the word that stands there. -/
theorem exists_head_of_enum {p : Param} {params : List Param} {token : Token}
    {tokens : List Token} {args : List Argument} (hkind : p.kind = .enum)
    (h : bindAll days command nested (p :: params) (token :: tokens) = .ok args) :
    ∃ a rest, args = a :: rest ∧ a.value = .enum token.text := by
  have hbound := bindAll_eq_ok_iff.mp h
  rw [List.zip_cons_cons, List.forall₂_cons_left_iff] at hbound
  obtain ⟨a, rest, ha, _, rfl⟩ := hbound
  obtain ⟨value, hvalue, rfl⟩ := bind_eq_ok_iff.mp ha
  rw [hkind] at hvalue
  exact ⟨_, rest, rfl, (Except.ok.inj hvalue).symm⟩

end Argument

/-! Nodes and commands -/

namespace Command

variable {c : Command}

theorem exists_enum_of_discriminant {word : String} (h : c.discriminant = some word) :
    ∃ p params, c.positional = p :: params ∧ p.kind = .enum := by
  obtain ⟨p, params, hparams, hkind, _⟩ := discriminant_eq_some_iff.mp h
  refine ⟨p, params.filter fun p => p.kind ≠ .subQuery, ?_, hkind⟩
  rw [positional, hparams, List.filter_cons_of_pos (by simp [hkind])]

theorem length_required_le : c.required.length ≤ c.positional.length :=
  List.length_filter_le _ _

end Command

namespace Query

open Argument

variable {table : CommandTable} {days lineLength : Nat} {nested : Bool} {c : Command} {q : Query}

/-- A node is a call of a command, as far as the command says what a call looks like. -/
structure Conforms (days : Nat) (c : Command) (q : Query) : Prop where
  command : q.command = c.name
  variant : q.variant = c.discriminant
  subQueries : q.subQueries.length = c.subQuerySlots
  params : q.args.map signature <+: c.positional.map Param.signature
  enough : c.required.length ≤ q.args.length
  complete : c.subQuerySlots ≠ 0 → q.args.length = c.positional.length
  leading : ∀ word, q.variant = some word → ∃ a, q.args.head? = some a ∧ a.value = .enum word
  values : ∀ a ∈ q.args, Stands days a.kind a.raw a.value

/-- Where sub-queries follow, each parameter before them has a token. -/
theorem length_lt_of_divide {stop : Nat} {tail : List Token} (hslots : c.subQueryParams ≠ [])
    (h : (divide table c nested stop tail).fault = none) : c.positional.length < tail.length := by
  have hrest : tail.drop c.positional.length ≠ [] := by
    intro hnil
    rw [divide, hnil] at h
    split at h
    · exact hslots ‹_›
    · simp at h
    · obtain ⟨i, hstart, _⟩ := divideInTwo_whole h
      have hlt := lastIndex?_lt hstart
      simp at hlt
  simpa using hrest

theorem Heads.conforms {head : Token} {tail : List Token} {args : List Argument}
    {runs : List (List Token)} (hcheck : c.check = .ok ())
    (h : Heads table days nested head tail c args runs) {subQueries : List Query}
    (hlength : runs.length = subQueries.length) :
    Conforms days c ⟨c.name, c.discriminant, args, subQueries, runSpan head tail⟩ := by
  have hargs := length_of_bindAll h.bound
  have hfault : (divide table c nested (runSpan head tail).stop tail).fault = none := by
    rw [h.divided]
  constructor
  · rfl
  · rfl
  · have hruns := length_runs_divide hfault
    have hmost := (Command.check_eq_ok_iff.mp hcheck).2.2
    simp only [h.divided, hlength] at hruns
    simp only [Command.subQuerySlots] at hmost ⊢
    omega
  · rw [map_signature_of_bindAll h.bound, List.map_take]
    exact List.take_prefix _ _
  · have henough := h.enough
    have hle := c.length_required_le
    simp only [hargs]
    omega
  · intro hslots
    have hlt := length_lt_of_divide (by simpa [Command.subQuerySlots] using hslots) hfault
    simp only [hargs]
    omega
  · intro word hword
    obtain ⟨p, params, hpositional, hkind⟩ := Command.exists_enum_of_discriminant hword
    obtain ⟨-, -, -, hnone | ⟨-, hnext⟩⟩ := CommandTable.of_resolve_eq_some h.resolved
    · rw [hnone] at hword
      cases hword
    · -- The word after the command name is the discriminant.
      obtain ⟨token, tokens, rfl⟩ : ∃ token tokens, tail = token :: tokens := by
        cases tail with
        | nil => simp [hnext] at hword
        | cons token tokens => exact ⟨token, tokens, rfl⟩
      have hbound := h.bound
      rw [hpositional] at hbound
      obtain ⟨a, rest, rfl, hvalue⟩ := exists_head_of_enum hkind hbound
      obtain rfl : token.text = word := by simpa [hnext] using hword
      exact ⟨a, rfl, hvalue⟩
  · intro a ha
    exact readValue_eq_ok_iff.mp (readValue_of_mem_bindAll h.bound ha)

def CallsFrom (table : CommandTable) (days : Nat) (nested : Bool) (q : Query) : Prop :=
  ∃ c ∈ table.commands, c.visibleIn nested = true ∧ q.Conforms days c

theorem callsFrom_of_ofTokens (hsound : table.check = .ok ()) {tokens : List Token}
    (h : ofTokens table days lineLength nested tokens = .ok q) :
    q.CallsFrom table days nested ∧
      ∀ sub ∈ q.subQueries, ∀ s ∈ sub.nodes, s.CallsFrom table days true := by
  refine ofTokens_induct (motive := fun nested _ q => q.CallsFrom table days nested ∧
    ∀ sub ∈ q.subQueries, ∀ s ∈ sub.nodes, s.CallsFrom table days true) ?_ h
  intro nested head tail c args runs subQueries hheads hsubs
  obtain ⟨hmem, hvisible, -, -⟩ := CommandTable.of_resolve_eq_some hheads.resolved
  have hcheck := ((CommandTable.check_eq_ok_iff table).mp hsound).1 c hmem
  refine ⟨⟨c, hmem, hvisible, hheads.conforms hcheck hsubs.length_eq⟩, ?_⟩
  intro sub hsub
  obtain ⟨run, _, _, hcalls, hbelow⟩ := exists_mem_of_forall₂ hsubs hsub
  exact forall_nodes hcalls hbelow

def cityLine : String := "compare city \"Rome\" max `t` -1"

theorem exists_parse_cityLine :
    ∃ q, parse CommandTable.builtin 2 false cityLine = .ok q ∧ q.subQueries.length = 1 := by
  have htokens : tokenize cityLine =
      [⟨"compare", 0⟩, ⟨"city", 8⟩, ⟨"\"Rome\"", 13⟩, ⟨"max", 20⟩, ⟨"`t`", 24⟩, ⟨"-1", 28⟩] := by
    decide +kernel
  obtain ⟨sub, hsub⟩ : Forms CommandTable.builtin 2 30 true
      [⟨"max", 20⟩, ⟨"`t`", 24⟩, ⟨"-1", 28⟩] :=
    ⟨_, ofTokens_cons_eq_ok_iff.mpr ⟨CommandTable.builtin.commands[4], _, [], [],
      ⟨rfl, by decide, rfl, rfl⟩, .nil, rfl⟩⟩
  unfold parse
  rw [htokens]
  exact ⟨_, ofTokens_cons_eq_ok_iff.mpr ⟨CommandTable.builtin.commands[11], _, _, [sub],
    ⟨rfl, by decide, rfl, rfl⟩, .cons hsub .nil, rfl⟩, rfl⟩

/-- Whatever is read conforms to the table. The query itself calls a command that may be used
in its nesting, and each query below it one that may stand inside another. -/
theorem conforms_of_parse {line : String} (hsound : table.check = .ok ())
    (h : parse table days nested line = .ok q) :
    (∃ c ∈ table.commands, c.visibleIn nested = true ∧ q.Conforms days c) ∧
      (∀ sub ∈ q.subQueries, ∀ s ∈ sub.nodes,
        ∃ c ∈ table.commands, c.canSubQuery = true ∧ s.Conforms days c) ∧
      ∀ s ∈ q.nodes, ∀ a ∈ s.args, a.kind ≠ .subQuery ∧ a.kind ≠ .unsupported := by
  obtain ⟨hroot, hbelow⟩ := callsFrom_of_ofTokens hsound h
  refine ⟨hroot, fun sub hsub s hs => by simpa [CallsFrom] using hbelow sub hsub s hs, ?_⟩
  have hkinds {nested : Bool} {s : Query} (hcalls : s.CallsFrom table days nested) :
      ∀ a ∈ s.args, a.kind ≠ .subQuery ∧ a.kind ≠ .unsupported := by
    obtain ⟨c, _, _, hconforms⟩ := hcalls
    exact fun a ha => (hconforms.values a ha).kind_ne
  exact forall_nodes (hkinds hroot) fun sub hsub s hs => hkinds (hbelow sub hsub s hs)

theorem conforms_of_city_line :
    ∃ q, parse CommandTable.builtin 2 false cityLine = .ok q ∧ q.subQueries.length = 1 ∧
      (∃ c ∈ CommandTable.builtin.commands, c.visibleIn false = true ∧ q.Conforms 2 c) ∧
      ∀ sub ∈ q.subQueries, ∀ s ∈ sub.nodes,
        ∃ c ∈ CommandTable.builtin.commands, c.canSubQuery = true ∧ s.Conforms 2 c := by
  obtain ⟨q, hq, hone⟩ := exists_parse_cityLine
  have hsound : CommandTable.builtin.check = .ok () := by decide
  obtain ⟨hroot, hbelow, _⟩ := conforms_of_parse hsound hq
  exact ⟨q, hq, hone, hroot, hbelow⟩

/-! Required parameters -/

/-- Every required parameter has the argument in its place. -/
def Binds (q : Query) (c : Command) : Prop :=
  ∀ (i : Nat) (p : Param), c.positional[i]? = some p → p.optional = false →
    ∃ a, q.args[i]? = some a ∧ a.signature = p.signature

/-- What a filter keeps comes first if nothing after as many elements is kept. -/
theorem filter_isPrefix_iff {α : Type} {keep : α → Bool} {items : List α} :
    items.filter keep <+: items ↔
      ∀ x ∈ items.drop (items.filter keep).length, keep x = false := by
  constructor
  · intro h
    obtain ⟨rest, hrest⟩ := h
    have hnone : rest.filter keep = [] := by
      have hfilter := congrArg (List.filter keep) hrest
      rw [List.filter_append, List.filter_filter] at hfilter
      simpa using hfilter
    have hdrop := congrArg (List.drop (items.filter keep).length) hrest
    rw [List.drop_left] at hdrop
    rw [← hdrop]
    simpa [List.filter_eq_nil_iff] using hnone
  · intro h
    have hnone : (items.drop (items.filter keep).length).filter keep = [] := by
      simpa [List.filter_eq_nil_iff] using h
    have hkept : items.filter keep = (items.take (items.filter keep).length).filter keep := by
      conv_lhs => rw [← List.take_append_drop (items.filter keep).length items]
      rw [List.filter_append, hnone, List.append_nil]
    -- So many elements are kept of so many, which is all of them.
    have hall : (items.take (items.filter keep).length).filter keep =
        items.take (items.filter keep).length := by
      refine List.filter_sublist.eq_of_length_le ?_
      rw [← hkept]
      exact List.length_take_le _ _
    rw [hkept.trans hall]
    exact List.take_prefix _ _

theorem Conforms.binds_iff (h : q.Conforms days c) :
    q.Binds c ↔ ∀ p ∈ c.positional.drop q.args.length, p.optional = true := by
  constructor
  · intro hbinds p hp
    by_contra hrequired
    obtain ⟨i, hi⟩ := List.getElem?_of_mem hp
    rw [List.getElem?_drop] at hi
    obtain ⟨a, ha, -⟩ := hbinds _ p hi (by simpa using hrequired)
    obtain ⟨hlt, -⟩ := List.getElem?_eq_some_iff.mp ha
    omega
  · intro hoptional i p hp hrequired
    by_cases hlt : i < q.args.length
    · refine ⟨q.args[i], List.getElem?_eq_getElem hlt, ?_⟩
      obtain ⟨rest, hrest⟩ := h.params
      have hat := congrArg (·[i]?) hrest
      simp only [List.getElem?_map, hp, Option.map_some] at hat
      rw [List.getElem?_append_left (by simpa using hlt), List.getElem?_map,
        List.getElem?_eq_getElem hlt, Option.map_some, Option.some.injEq] at hat
      exact hat
    · have hmem : p ∈ c.positional.drop q.args.length := by
        refine List.mem_of_getElem? (i := i - q.args.length) ?_
        rw [List.getElem?_drop, Nat.add_sub_cancel' (Nat.le_of_not_lt hlt), hp]
      rw [hoptional p hmem] at hrequired
      cases hrequired

theorem required_isPrefix_iff :
    c.required <+: c.positional ↔
      ∀ p ∈ c.positional.drop c.required.length, p.optional = true := by
  unfold Command.required
  rw [filter_isPrefix_iff]
  simp only [Bool.not_eq_false']

/-- Where the optional parameters come last, or sub-queries follow, enough arguments are all that
are required. -/
theorem Conforms.binds (h : q.Conforms days c)
    (horder : c.subQuerySlots ≠ 0 ∨ c.required <+: c.positional) : q.Binds c := by
  rw [h.binds_iff]
  rcases horder with hslots | hfirst
  · simp [h.complete hslots]
  · intro p hp
    refine required_isPrefix_iff.mp hfirst p ?_
    exact (List.drop_sublist_drop_left _ h.enough).subset hp

/-- With as few arguments as there may be, they are the required ones just where the optional
parameters come last. -/
theorem Conforms.binds_least_iff (h : q.Conforms days c)
    (hleast : q.args.length = c.required.length) : q.Binds c ↔ c.required <+: c.positional := by
  rw [h.binds_iff, hleast, required_isPrefix_iff]

/-- The command of a node is the only one of its name and variant. -/
theorem Conforms.eq_of_key (hsound : table.check = .ok ()) (hmem : c ∈ table.commands)
    (h : q.Conforms days c) {d : Command} (hd : d ∈ table.commands) (hname : d.name = q.command)
    (hvariant : d.discriminant = q.variant) : d = c := by
  refine List.inj_on_of_nodup_map ((CommandTable.check_eq_ok_iff table).mp hsound).2 hd hmem ?_
  rw [Command.key, Command.key, hname, hvariant, h.command, h.variant]

/-- Every node of a query that was read has at least as many arguments as its command requires.
They are those of the required parameters if the optional ones come last or sub-queries follow;
and of a command that is called with no more than it requires, only then. -/
theorem binds_of_parse {line : String} (hsound : table.check = .ok ())
    (h : parse table days nested line = .ok q) :
    ∀ s ∈ q.nodes, ∃ c ∈ table.commands, s.Conforms days c ∧
      (∀ d ∈ table.commands, d.name = s.command → d.discriminant = s.variant → d = c) ∧
      (c.subQuerySlots ≠ 0 ∨ c.required <+: c.positional → s.Binds c) ∧
      (s.args.length = c.required.length → (s.Binds c ↔ c.required <+: c.positional)) := by
  obtain ⟨hroot, hbelow⟩ := callsFrom_of_ofTokens hsound h
  have hnode {nested : Bool} {s : Query} (hcalls : s.CallsFrom table days nested) :
      ∃ c ∈ table.commands, s.Conforms days c ∧
        (∀ d ∈ table.commands, d.name = s.command → d.discriminant = s.variant → d = c) ∧
        (c.subQuerySlots ≠ 0 ∨ c.required <+: c.positional → s.Binds c) ∧
        (s.args.length = c.required.length → (s.Binds c ↔ c.required <+: c.positional)) := by
    obtain ⟨c, hmem, _, hconforms⟩ := hcalls
    exact ⟨c, hmem, hconforms, fun d hd => hconforms.eq_of_key hsound hmem hd, hconforms.binds,
      hconforms.binds_least_iff⟩
  exact forall_nodes (hnode hroot) fun sub hsub s hs => hnode (hbelow sub hsub s hs)

def optionalFirst : CommandTable :=
  .ofCommands [⟨"min", "", true, [.omittable "start" .date, .required "row" .row]⟩]

/-- One argument is as many as are required, but it is the optional one that is bound. -/
theorem not_binds_of_optional_first :
    optionalFirst.check = .ok () ∧
      ∃ q, parse optionalFirst 1 false "min 0" = .ok q ∧
        ∃ c ∈ optionalFirst.commands, c.name = q.command ∧ c.discriminant = q.variant ∧
          ∃ p ∈ c.required, ∀ a ∈ q.args, a.name ≠ p.name := by
  have htokens : tokenize "min 0" = [⟨"min", 0⟩, ⟨"0", 4⟩] := by decide +kernel
  refine ⟨by decide, ⟨"min", none, [⟨"start", .date, .date (.index 0), "0", ⟨4, 5⟩⟩], [], ⟨0, 5⟩⟩,
    ?_, optionalFirst.commands[0], List.mem_cons_self, rfl, rfl, .required "row" .row,
    List.mem_cons_self, by decide⟩
  unfold parse
  rw [htokens]
  exact ofTokens_cons_eq_ok_iff.mpr ⟨optionalFirst.commands[0], _, [], [],
    ⟨rfl, by decide, rfl, rfl⟩, .nil, rfl⟩

theorem binds_of_city_line :
    ∃ q, parse CommandTable.builtin 2 false cityLine = .ok q ∧
      ∀ s ∈ q.nodes, ∃ c ∈ CommandTable.builtin.commands, s.Conforms 2 c ∧ s.Binds c := by
  obtain ⟨q, hq, _⟩ := exists_parse_cityLine
  have hsound : CommandTable.builtin.check = .ok () := by decide
  have horder : ∀ c ∈ CommandTable.builtin.commands, c.required <+: c.positional := by decide
  refine ⟨q, hq, fun s hs => ?_⟩
  obtain ⟨c, hmem, hconforms, -, hbinds, -⟩ := binds_of_parse hsound hq s hs
  exact ⟨c, hmem, hconforms, hbinds (.inr (horder c hmem))⟩

end Query

end Almanac
