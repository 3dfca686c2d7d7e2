import Almanac.Proofs.Completion.Steps
import Almanac.Proofs.Query.Parsing
import Almanac.Proofs.Table.Builtin

/-!
Which command a panel documents. Once the token after the command word is finished, the panel is
that of the only overload, or of the overload that has the token as its word. The parser selects
the first overload that answers, and one without a discriminant answers to every token. The two
agree exactly if an overload that stands alone answers to the token, and among several none without
a discriminant comes before the one with the word. The built-in commands are like that, but not
every sound table is.
-/

namespace Almanac

/-- Looking for fewer elements finds the same one unless one of the others comes first. -/
theorem find?_eq_find?_or_iff {α : Type} {p q : α → Bool} (h : ∀ x, p x = true → q x = false)
    (xs : List α) :
    xs.find? q = xs.find? (fun x => p x || q x) ↔
      ∀ front x back, xs = front ++ x :: back → p x = true → ∃ y ∈ front, q y = true := by
  induction xs with
  | nil => simp
  | cons x xs ih =>
    cases hq : q x with
    | true =>
      rw [List.find?_cons_of_pos hq, List.find?_cons_of_pos (by simp [hq])]
      refine iff_of_true rfl fun front y back hsplit hy => ?_
      cases front with
      | nil =>
        obtain ⟨rfl, _⟩ := List.cons.inj hsplit
        simp [h x hy] at hq
      | cons z front =>
        obtain ⟨rfl, _⟩ := List.cons.inj hsplit
        exact ⟨x, List.mem_cons_self, hq⟩
    | false =>
      rw [List.find?_cons_of_neg (by simp [hq])]
      cases hp : p x with
      | true =>
        rw [List.find?_cons_of_pos (by simp [hp])]
        refine iff_of_false (fun hfound => ?_) fun hfront => ?_
        · have hx := List.find?_some hfound
          simp [hq] at hx
        · obtain ⟨y, hy, _⟩ := hfront [] x xs rfl hp
          cases hy
      | false =>
        rw [List.find?_cons_of_neg (by simp [hp, hq]), ih]
        constructor
        · intro hxs front y back hsplit hy
          cases front with
          | nil =>
            obtain ⟨rfl, _⟩ := List.cons.inj hsplit
            simp [hp] at hy
          | cons z front =>
            obtain ⟨rfl, hrest⟩ := List.cons.inj hsplit
            obtain ⟨y', hmem, hy'⟩ := hxs front y back hrest hy
            exact ⟨y', List.mem_cons_of_mem _ hmem, hy'⟩
        · intro hcons front y back hsplit hy
          obtain ⟨y', hmem, hy'⟩ := hcons (x :: front) y back (by rw [hsplit]; rfl) hy
          rcases List.mem_cons.mp hmem with rfl | hmem
          · simp [hq] at hy'
          · exact ⟨y', hmem, hy'⟩

/-- A word tells such overloads apart like the parser does: one that stands alone answers to it,
and among several none without a discriminant comes before the one with the word. -/
structure Command.WordDecides (overloads : List Command) (word : String) : Prop where
  alone : ∀ c, overloads = [c] → c.discriminant = none ∨ c.discriminant = some word
  among : 2 ≤ overloads.length → ∀ front c back, overloads = front ++ c :: back →
    c.discriminant = none → ∃ d ∈ front, d.discriminant = some word

namespace CommandTable

variable {table : CommandTable} {name word : String} {nested : Bool}

/-- The command that is documented for a name and a word after it. -/
def documented? (table : CommandTable) (name word : String) (nested : Bool) : Option Command :=
  match table.visibleOverloads name nested with
  | [c] => some c
  | overloads => overloads.find? fun c => c.discriminant = some word

theorem documented?_eq_resolve_iff (hsound : table.check = .ok ()) :
    table.documented? name word nested = table.resolve name (some word) nested ↔
      Command.WordDecides (table.visibleOverloads name nested) word := by
  rw [resolve_eq_find?_visible hsound, documented?]
  split
  · rename_i c hone
    rw [hone]
    constructor
    · intro h
      have hc := List.find?_some h.symm
      refine ⟨fun d hd => ?_, fun htwo => absurd htwo (by simp)⟩
      obtain rfl := List.singleton_inj.mp hd
      simpa using hc
    · intro h
      rw [List.find?_cons_of_pos (by simpa using h.alone c rfl)]
  · rename_i hnotOne
    rw [find?_eq_find?_or_iff (by simp +contextual)]
    constructor
    · intro h
      refine ⟨fun c hc => absurd hc (hnotOne c), fun _ front c back hsplit hbare => ?_⟩
      obtain ⟨d, hd, hword⟩ := h front c back hsplit (by simpa using hbare)
      exact ⟨d, hd, by simpa using hword⟩
    · intro h front c back hsplit hbare
      have hpos : 0 < (table.visibleOverloads name nested).length := by
        rw [hsplit, List.length_append, List.length_cons]
        omega
      have hne : (table.visibleOverloads name nested).length ≠ 1 := by
        intro hlength
        obtain ⟨d, hd⟩ := List.length_eq_one_iff.mp hlength
        exact hnotOne d hd
      have htwo : 2 ≤ (table.visibleOverloads name nested).length := by
        omega
      obtain ⟨d, hd, hword⟩ := h.among htwo front c back hsplit (by simpa using hbare)
      exact ⟨d, hd, by simpa using hword⟩

/-- Of the built-in overloads one alone has no discriminant, and several all have one. -/
theorem wordDecides_builtin :
    Command.WordDecides (builtin.visibleOverloads name nested) word where
  alone c hone := by
    refine .inl ?_
    by_contra hkeyed
    have hmem : c ∈ builtin.visibleOverloads name nested := by simp [hone]
    obtain ⟨hcommand, rfl⟩ := of_mem_visibleOverloads hmem
    obtain ⟨houter, htwo, _⟩ := overload_of_discriminant c hcommand hkeyed
    have hvisible : c.visibleIn nested = true := (List.mem_filter.mp hmem).2
    obtain rfl : nested = false := by
      cases nested with
      | false => rfl
      | true => simp [houter] at hvisible
    rw [hone, List.length_singleton] at htwo
    omega
  among htwo front c back hsplit hbare := by
    have hmem : c ∈ builtin.visibleOverloads name nested := by simp [hsplit]
    obtain ⟨hcommand, rfl⟩ := of_mem_visibleOverloads hmem
    have hone := visibleOverloads_of_bare c hcommand hbare nested (List.mem_filter.mp hmem).2
    rw [hone, List.length_singleton] at htwo
    omega

end CommandTable

structure Panel.LaysOut (panel : Panel) (c : Command) : Prop where
  header : panel.header = some ("Query " ++ c.name ++ " documentation:")
  signature : ∃ s, panel.signature = some s ∧ s.command = c.name ∧
    s.params.map (fun p => (p.label, p.kind, p.optional)) =
      c.params.map fun p => (p.bracketed, p.kind, p.optional)

/-- The panel lays out no parameters: there is no such command, or the word is none of those that
its overloads have. -/
structure Panel.Refuses (panel : Panel) (word : String) : Prop where
  bare : ∀ s ∈ panel.signature, s.params = []
  reason : panel.message = some Completion.nothingFound ∨
    ∃ name, panel.message = some ("Type " ++ name ++ " doesn't have an enum for " ++ word)

namespace Completion

open CommandTable

variable {offer : Offer} {nested : Bool} {line : List Char} {head next : Token}
  {rest tail : List Token} {c : Command}

/-- A finished token after the command word leads to the arguments of the documented command, or to
a panel that lays out nothing. -/
theorem step_of_second (hscan : Token.scan line = head :: next :: rest)
    (hend : endsWithSeparator line = true) :
    (∃ c, offer.table.documented? head.text next.text nested = some c ∧ c.name = head.text ∧
        step offer nested line =
          ofArguments offer line head (next :: rest) c (titled c.name nested)) ∨
      offer.table.documented? head.text next.text nested = none ∧
        ∃ panel, panel.Refuses next.text ∧
          step offer nested line = .done (closed panel (Text.width line)) := by
  rw [step_of_head hscan (.inr hend)]
  have htyping : typingVariant line (next :: rest) = false := by
    simp [typingVariant, hend]
  have hname : ∀ c ∈ offer.table.visibleOverloads head.text nested, c.name = head.text :=
    fun c hc => (of_mem_visibleOverloads hc).2
  unfold ofHead documented?
  cases hoverloads : offer.table.visibleOverloads head.text nested with
  | nil => exact .inr ⟨rfl, _, ⟨by simp, .inl rfl⟩, rfl⟩
  | cons first more =>
    rw [hoverloads] at hname
    have hfirst := hname first List.mem_cons_self
    cases more with
    | nil => exact .inl ⟨first, rfl, hfirst, rfl⟩
    | cons second more =>
      simp only [htyping, List.isEmpty_cons, Bool.false_eq_true, if_false, List.head?_cons,
        Option.map_some, Option.getD_some]
      split
      · rename_i c hfound
        have hc := hname c (List.mem_of_find?_eq_some hfound)
        refine .inl ⟨c, hfound, hc, ?_⟩
        rw [hc, hfirst]
        rfl
      · rename_i hfound
        exact .inr ⟨hfound, _, ⟨by simp, .inr ⟨_, rfl⟩⟩, rfl⟩

theorem laysOut_described (hname : c.name = head.text) (current : Nat) (second : Bool) :
    (described (titled c.name nested) head c current second).LaysOut c where
  header := rfl
  signature := by
    refine ⟨_, rfl, hname.symm, ?_⟩
    refine List.ext_getElem? fun i => ?_
    simp only [signature, List.getElem?_map, List.getElem?_mapIdx, Option.map_map]
    rfl

/-- The outermost panel is that of the command whose arguments are being typed. -/
theorem laysOut_ofLine (hname : c.name = head.text)
    (h : step offer nested line = ofArguments offer line head tail c (titled c.name nested)) :
    (ofLine offer nested line).panel.LaysOut c := by
  have hdescribed := @laysOut_described nested head c hname (currentParam line (head :: tail) c
    (secondBegun offer.table (head :: tail))) (secondBegun offer.table (head :: tail))
  rcases ofArguments_cases offer (titled c.name nested) rfl rfl with
    ⟨_, _, _, hdone⟩ | ⟨_, _, _, hdone⟩ | ⟨_, hnest⟩ | ⟨_, _, _, hdone⟩
  · rw [ofLine_done (h.trans hdone)]
    exact ⟨hdescribed.header, hdescribed.signature⟩
  · rw [ofLine_done (h.trans hdone)]
    exact ⟨hdescribed.header, hdescribed.signature⟩
  · rw [ofLine_nest (h.trans hnest)]
    exact ⟨hdescribed.header, hdescribed.signature⟩
  · rw [ofLine_done (h.trans hdone)]
    exact ⟨hdescribed.header, hdescribed.signature⟩

/-- For a line with a finished second token the outermost panel lays out the parameters of the
documented command, or none if there is no such command. That is the command that the parser
selects exactly if the second token decides between the visible overloads; for the built-in
commands it always does. -/
theorem documents_resolved_iff {offer : Offer} (hsound : offer.table.check = .ok ())
    {nested : Bool} {line : List Char} {head next : Token} {rest : List Token}
    (hscan : Token.scan line = head :: next :: rest) (hend : endsWithSeparator line = true) :
    (∀ c, offer.table.documented? head.text next.text nested = some c →
        step offer nested line =
            ofArguments offer line head (next :: rest) c (titled c.name nested) ∧
          (ofLine offer nested line).panel.LaysOut c) ∧
      (offer.table.documented? head.text next.text nested = none →
        (ofLine offer nested line).panel.Refuses next.text) ∧
      (offer.table.documented? head.text next.text nested =
          offer.table.resolve head.text (some next.text) nested ↔
        Command.WordDecides (offer.table.visibleOverloads head.text nested) next.text) ∧
      (offer.table = builtin → offer.table.documented? head.text next.text nested =
        offer.table.resolve head.text (some next.text) nested) := by
  have hagree := @documented?_eq_resolve_iff offer.table head.text next.text nested hsound
  refine ⟨?_, ?_, hagree, fun htable => hagree.mpr (htable ▸ wordDecides_builtin)⟩
  · intro c hc
    rcases @step_of_second offer nested line head next rest hscan hend with
      ⟨d, hd, hname, hstep⟩ | ⟨hnone, _⟩
    · obtain rfl : c = d := Option.some.inj (hc.symm.trans hd)
      exact ⟨hstep, laysOut_ofLine hname hstep⟩
    · rw [hnone] at hc
      cases hc
  · intro hnone
    rcases @step_of_second offer nested line head next rest hscan hend with
      ⟨d, hd, _⟩ | ⟨_, panel, hrefuses, hstep⟩
    · rw [hnone] at hd
      cases hd
    · rw [ofLine_done hstep]
      exact hrefuses

theorem documents_resolved_zip :
    let offer : Offer := ⟨builtin, [], []⟩
    ∃ c, offer.table.documented? "compare" "zip" false = some c ∧
      offer.table.resolve "compare" (some "zip") false = some c ∧ c.params = zipParams ∧
      (ofLine offer false "compare zip ".toList).panel.LaysOut c := by
  intro offer
  have hscan : Token.scan "compare zip ".toList = [⟨"compare", 0⟩, ⟨"zip", 8⟩] := by
    decide +kernel
  obtain ⟨hdocumented, _, _, hbuiltin⟩ :=
    @documents_resolved_iff offer builtin_sound false _ _ _ _ hscan rfl
  obtain ⟨c, hc, hparams⟩ : ∃ c, offer.table.documented? "compare" "zip" false = some c ∧
      c.params = zipParams := ⟨_, rfl, rfl⟩
  exact ⟨c, hc, (hbuiltin rfl).symm.trans hc, hparams, (hdocumented c hc).2⟩

def mixedTable : CommandTable := .ofCommands
  [⟨"get", "", false, valueParams⟩, ⟨"get", "", false, [.leading "mode" "all"]⟩]

/-- The parser selects the command that takes a row, while the panel says that the row is none of
the words. -/
theorem documents_no_bare_overload :
    mixedTable.check = .ok () ∧ Token.scan "get `t` ".toList = [⟨"get", 0⟩, ⟨"`t`", 4⟩] ∧
      endsWithSeparator "get `t` ".toList = true ∧
      mixedTable.resolve "get" (some "`t`") false = mixedTable.commands[0]? ∧
      Query.isValid mixedTable 1 false "get `t` 0" = true ∧
      mixedTable.documented? "get" "`t`" false ≠ mixedTable.resolve "get" (some "`t`") false ∧
      (ofLine ⟨mixedTable, ["t"], []⟩ false "get `t` ".toList).panel.signature =
        some ⟨"get", [], false⟩ ∧
      (ofLine ⟨mixedTable, ["t"], []⟩ false "get `t` ".toList).panel.message =
        some "Type row doesn't have an enum for `t`" := by
  have hscan : Token.scan "get `t` ".toList = [⟨"get", 0⟩, ⟨"`t`", 4⟩] := by
    decide +kernel
  have hstep : step ⟨mixedTable, ["t"], []⟩ false "get `t` ".toList =
      .done (closed
        { titled "get" false with
          signature := some ⟨"get", [], false⟩
          message := some "Type row doesn't have an enum for `t`" } 8) := by
    rw [step_of_head hscan (.inr rfl)]
    rfl
  have htokens : tokenize "get `t` 0" = [⟨"get", 0⟩, ⟨"`t`", 4⟩, ⟨"0", 8⟩] := by
    decide +kernel
  have hvalid : Query.isValid mixedTable 1 false "get `t` 0" = true := by
    refine Query.isValid_iff.mpr ⟨⟨"get", none, [⟨"row", .row, .row "t", "`t`", ⟨4, 7⟩⟩,
      ⟨"day", .date, .date (.index 0), "0", ⟨8, 9⟩⟩], [], ⟨0, 9⟩⟩, ?_⟩
    rw [htokens]
    exact Query.ofTokens_cons_eq_ok_iff.mpr ⟨mixedTable.commands[0], _, [], [],
      ⟨rfl, by decide, rfl, rfl⟩, .nil, rfl⟩
  refine ⟨by decide, hscan, rfl, by decide, hvalid, by decide, ?_, ?_⟩
  · rw [ofLine_done hstep]
    rfl
  · rw [ofLine_done hstep]
    rfl

end Completion

end Almanac
