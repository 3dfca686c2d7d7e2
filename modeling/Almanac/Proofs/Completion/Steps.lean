import Almanac.Completion.Suggestion
import Almanac.Proofs.Table.Params

/-!
The steps that a completion is made in. A line is completed at once, or the completion of what is
left of it from a sub-query on is nested in a panel. What is left is a proper end of the line, so
a property of all completions follows from the single steps.
-/

namespace Almanac

namespace CommandTable

variable {table : CommandTable} {name : String} {nested : Bool} {c : Command}

theorem of_mem_visibleOverloads (h : c ∈ table.visibleOverloads name nested) :
    c ∈ table.commands ∧ c.name = name := by
  obtain ⟨hmem, hname, _⟩ := mem_visibleOverloads_iff.mp h
  exact ⟨hmem, hname⟩

end CommandTable

namespace Completion

variable {offer : Offer} {nested : Bool} {line : List Char}

/-- The byte at which the part of a line starts that belongs to a sub-query. -/
def subOffset (line : List Char) : Option Token → Nat
  | none => Text.width line
  | some t => t.start

def around (panel : Panel) (offset : Nat) (inner : Completion) : Completion :=
  ⟨{ panel with nested := some inner.panel }, inner.insertions, offset + inner.replaceFrom⟩

theorem ofLine_done {completion : Completion} (h : step offer nested line = .done completion) :
    ofLine offer nested line = completion := by
  rw [ofLine]
  split
  · rename_i found hfound
    rw [h] at hfound
    exact (Step.done.inj hfound).symm
  · rename_i hfound
    rw [h] at hfound
    cases hfound

theorem ofLine_nest {panel : Panel} {start : Option Token}
    (h : step offer nested line = .nest panel start) :
    ofLine offer nested line =
      around panel (subOffset line start) (ofLine offer true (subLine line start)) := by
  rw [ofLine]
  split
  · rename_i hfound
    rw [h] at hfound
    cases hfound
  · rename_i hfound
    rw [h] at hfound
    obtain ⟨rfl, rfl⟩ := Step.nest.inj hfound
    cases start <;> rfl

/-- A property of completions follows from the steps. -/
theorem ofLine_induct {motive : Bool → List Char → Completion → Prop}
    (done : ∀ nested line completion, step offer nested line = .done completion →
      motive nested line completion)
    (nest : ∀ nested line panel start, step offer nested line = .nest panel start →
      motive true (subLine line start) (ofLine offer true (subLine line start)) →
      motive nested line
        (around panel (subOffset line start) (ofLine offer true (subLine line start))))
    (nested : Bool) (line : List Char) : motive nested line (ofLine offer nested line) := by
  induction hn : line.length using Nat.strongRecOn generalizing nested line with
  | ind n ih =>
    cases hstep : step offer nested line with
    | done completion =>
      rw [ofLine_done hstep]
      exact done nested line completion hstep
    | nest panel start =>
      rw [ofLine_nest hstep]
      have hshorter := length_subLine_lt hstep
      exact nest nested line panel start hstep (ih _ (by omega) true _ rfl)

/-! What a step is -/

def titled (word : String) (nested : Bool) : Panel :=
  { header := some ("Query " ++ word ++ " documentation:"), usageHint := hintFor nested }

theorem step_of_nil (h : Token.scan line = []) :
    step offer nested line = .done (ofCommands offer nested "" (Text.width line)) := by
  simp only [step, h]

theorem step_of_word {t : Token} (h : Token.scan line = [t])
    (hopen : endsWithSeparator line = false) :
    step offer nested line = .done (ofCommands offer nested t.text t.start) := by
  simp [step, h, hopen]

theorem step_of_head {head : Token} {tail : List Token} (h : Token.scan line = head :: tail)
    (hbegun : tail ≠ [] ∨ endsWithSeparator line = true) :
    step offer nested line = ofHead offer nested line head tail := by
  simp only [step, h]
  rw [if_neg]
  rcases hbegun with hne | hsep
  · simp [hne]
  · simp [hsep]

/-- The command whose arguments are typed behind the first word of a query: the only overload of the
word, or the one that the second token selects once it is finished. -/
def typedCommand? (table : CommandTable) (nested : Bool) (line : List Char) (head : Token)
    (tail : List Token) : Option Command :=
  match table.visibleOverloads head.text nested with
  | [c] => some c
  | overloads =>
    if typingVariant line tail then none
    else overloads.find? fun c => c.discriminant = tail.head?.map Token.text

theorem mem_of_typedCommand? {table : CommandTable} {head : Token} {tail : List Token}
    {c : Command} (h : typedCommand? table nested line head tail = some c) :
    c ∈ table.visibleOverloads head.text nested := by
  rw [typedCommand?] at h
  split at h
  · rename_i hone
    rw [hone, Option.some.inj h]
    exact List.mem_singleton_self c
  · split at h
    · cases h
    · exact List.mem_of_find?_eq_some h

structure Explains (panel : Panel) : Prop where
  candidates : panel.candidates = []
  nested : panel.nested = none
  message : panel.message ≠ none
  header : ∀ text ∈ panel.header, ∃ word, text = "Query " ++ word ++ " documentation:"
  signature : ∀ s ∈ panel.signature, s.truncated = false

/-- What follows the first word of a query leads to the arguments of a command, to the choice of an
overload, or to nothing that can be chosen. -/
theorem ofHead_cases (offer : Offer) (nested : Bool) (line : List Char) (head : Token)
    (tail : List Token) :
    (∃ c, typedCommand? offer.table nested line head tail = some c ∧
      ofHead offer nested line head tail =
        ofArguments offer line head tail c (titled head.text nested)) ∨
    (typedCommand? offer.table nested line head tail = none ∧
      2 ≤ (offer.table.visibleOverloads head.text nested).length ∧ typingVariant line tail = true ∧
      ofHead offer nested line head tail =
        .done (ofVariants head (offer.table.visibleOverloads head.text nested)
          (titled head.text nested) (tail.head?.elim "" Token.text)
          (tail.head?.elim (Text.width line) Token.start) (Text.width line))) ∨
    (typedCommand? offer.table nested line head tail = none ∧
      (2 ≤ (offer.table.visibleOverloads head.text nested).length →
        typingVariant line tail = false) ∧
      ∃ panel, Explains panel ∧
        ofHead offer nested line head tail = .done (closed panel (Text.width line))) := by
  cases hoverloads : offer.table.visibleOverloads head.text nested with
  | nil =>
    refine .inr (.inr ⟨?_, by simp, { message := some nothingFound },
      ⟨rfl, rfl, by simp, by simp, by simp⟩, ?_⟩)
    · simp [typedCommand?, hoverloads]
    · simp only [ofHead, hoverloads]
  | cons first more =>
    have hname : first.name = head.text := by
      refine (@CommandTable.of_mem_visibleOverloads offer.table head.text nested first ?_).2
      simp [hoverloads]
    cases more with
    | nil =>
      refine .inl ⟨first, by simp [typedCommand?, hoverloads], ?_⟩
      simp only [ofHead, hoverloads, hname]
      rfl
    | cons second more =>
      simp only [ofHead, typedCommand?, hoverloads, hname, List.isEmpty_cons, Bool.false_eq_true,
        if_false]
      cases htyping : typingVariant line tail with
      | true =>
        refine .inr (.inl ⟨rfl, by simp, rfl, ?_⟩)
        cases tail <;> rfl
      | false =>
        simp only [Bool.false_eq_true, if_false]
        split
        · rename_i c hfound
          exact .inl ⟨c, hfound, rfl⟩
        · rename_i hfound
          refine .inr (.inr ⟨hfound, fun _ => trivial, _, ⟨rfl, rfl, by simp, ?_, by simp⟩, rfl⟩)
          intro text htext
          exact ⟨_, (Option.some.inj htext).symm⟩

theorem ofHead_of_typed {head : Token} {tail : List Token} {c : Command}
    (h : typedCommand? offer.table nested line head tail = some c) :
    ofHead offer nested line head tail =
      ofArguments offer line head tail c (titled head.text nested) := by
  rcases ofHead_cases offer nested line head tail with ⟨d, hd, heq⟩ | ⟨hnone, _⟩ | ⟨hnone, _⟩
  · obtain rfl := Option.some.inj (h.symm.trans hd)
    exact heq
  · rw [h] at hnone
    cases hnone
  · rw [h] at hnone
    cases hnone

/-- While an overload is being chosen no arguments are typed. -/
theorem typedCommand?_of_choosing {table : CommandTable} {head : Token} {tail : List Token}
    (hmany : 2 ≤ (table.visibleOverloads head.text nested).length)
    (htyping : typingVariant line tail = true) :
    typedCommand? table nested line head tail = none := by
  rw [typedCommand?]
  split
  · rename_i hone
    rw [hone, List.length_singleton] at hmany
    omega
  · rw [if_pos htyping]

theorem ofHead_of_choosing {head : Token} {tail : List Token}
    (hmany : 2 ≤ (offer.table.visibleOverloads head.text nested).length)
    (htyping : typingVariant line tail = true) :
    ofHead offer nested line head tail =
      .done (ofVariants head (offer.table.visibleOverloads head.text nested)
        (titled head.text nested) (tail.head?.elim "" Token.text)
        (tail.head?.elim (Text.width line) Token.start) (Text.width line)) := by
  rcases ofHead_cases offer nested line head tail with
    ⟨c, hc, _⟩ | ⟨_, _, _, heq⟩ | ⟨_, hnot, _⟩
  · rw [typedCommand?_of_choosing hmany htyping] at hc
    cases hc
  · exact heq
  · rw [hnot hmany] at htyping
    cases htyping

/-- The sub-queries begin behind the other arguments. -/
theorem opening_eq {c : Command} (hslots : c.subQuerySlots = 1 ∨ c.subQuerySlots = 2) :
    opening c = c.positional.length + 1 := by
  have hlength := c.length_params
  unfold opening
  split <;> omega

theorem slot_eq {c : Command} (htwo : c.subQuerySlots = 2) (second : Bool) :
    slot c second = c.positional.length + if second then 1 else 0 := by
  rw [slot, c.length_params, htwo]
  cases second <;> simp

def described (panel : Panel) (head : Token) (c : Command) (current : Nat) (second : Bool) :
    Panel :=
  { panel with
    signature := some (signature head c current second)
    valuesHeader := valuesHeader c.params[current]? }

def entered (tail : List Token) (current : Nat) : String := (tail[current]?).elim "" Token.text

variable {head : Token} {tail : List Token} {c : Command} {panel : Panel} {second : Bool}
  {current : Nat}

/-- An argument is chosen among rows or among dates, or it is a sub-query, or nothing can be
chosen. -/
theorem ofArguments_cases (offer : Offer) (panel : Panel)
    (hsecond : secondBegun offer.table (head :: tail) = second)
    (hcurrent : currentParam line (head :: tail) c second = current) :
    (∃ p, c.params[current]? = some p ∧ p.kind = .row ∧
      ofArguments offer line head tail c panel =
        .done (ofValues (described panel head c current second)
          (place line (tail.getLast?.getD head)) (rowsFor offer.rows (entered tail current)))) ∨
    (∃ p, c.params[current]? = some p ∧ p.kind = .date ∧
      ofArguments offer line head tail c panel =
        .done (ofValues (described panel head c current second)
          (place line (tail.getLast?.getD head))
          (offer.dates.filter (extends? (entered tail current))))) ∨
    (((∃ p, c.params[current]? = some p ∧ p.kind = .subQuery) ∨
        c.params[current]? = none ∧ c.hasSubQueryTail = true) ∧
      ofArguments offer line head tail c panel =
        .nest (described panel head c current second)
          (subQueryToken? offer.table tail c second)) ∨
    ∃ message, (∀ p, c.params[current]? = some p →
        p.kind ≠ .row ∧ p.kind ≠ .date ∧ p.kind ≠ .subQuery) ∧
      (c.params[current]? = none → c.hasSubQueryTail = false) ∧
      ofArguments offer line head tail c panel =
        .done (closed { described panel head c current second with message := some message }
          (place line (tail.getLast?.getD head)).start) := by
  subst hsecond
  subst hcurrent
  simp only [ofArguments]
  split
  · rename_i hkind
    obtain ⟨p, hp, hrow⟩ := Option.map_eq_some_iff.mp hkind
    exact .inl ⟨p, hp, hrow, rfl⟩
  · rename_i hkind
    obtain ⟨p, hp, hdate⟩ := Option.map_eq_some_iff.mp hkind
    exact .inr (.inl ⟨p, hp, hdate, rfl⟩)
  · rename_i hkind
    obtain ⟨p, hp, hslot⟩ := Option.map_eq_some_iff.mp hkind
    exact .inr (.inr (.inl ⟨.inl ⟨p, hp, hslot⟩, rfl⟩))
  · rename_i kind hrow hdate hslot hkind
    obtain ⟨p, hp, rfl⟩ := Option.map_eq_some_iff.mp hkind
    refine .inr (.inr (.inr ⟨_, ?_, by simp [hp], rfl⟩))
    intro q hq
    rw [hp, Option.some.injEq] at hq
    exact hq ▸ ⟨hrow, hdate, hslot⟩
  · rename_i hkind
    have hnone := Option.map_eq_none_iff.mp hkind
    split
    · rename_i htail
      exact .inr (.inr (.inl ⟨.inr ⟨hnone, htail⟩, rfl⟩))
    · rename_i htail
      exact .inr (.inr (.inr ⟨_, by simp [hnone], fun _ => by simpa using htail, rfl⟩))

/-! How a line is completed -/

structure Begun (line : List Char) (head : Token) (tail : List Token) : Prop where
  scan : Token.scan line = head :: tail
  more : tail ≠ [] ∨ endsWithSeparator line = true

structure AtArgument (offer : Offer) (nested : Bool) (line : List Char) (head : Token)
    (tail : List Token) (c : Command) (current : Nat) (second : Bool) : Prop where
  begun : Begun line head tail
  typed : typedCommand? offer.table nested line head tail = some c
  second_eq : secondBegun offer.table (head :: tail) = second
  current_eq : currentParam line (head :: tail) c second = current

theorem AtArgument.unique {head' : Token} {tail' : List Token} {c' : Command} {current' : Nat}
    {second' : Bool} (h : AtArgument offer nested line head tail c current second)
    (h' : AtArgument offer nested line head' tail' c' current' second') :
    head = head' ∧ tail = tail' ∧ c = c' ∧ current = current' ∧ second = second' := by
  obtain ⟨rfl, rfl⟩ := List.cons.inj (h.begun.scan.symm.trans h'.begun.scan)
  obtain rfl := Option.some.inj (h.typed.symm.trans h'.typed)
  obtain rfl := h.second_eq.symm.trans h'.second_eq
  obtain rfl := h.current_eq.symm.trans h'.current_eq
  exact ⟨rfl, rfl, rfl, rfl, rfl⟩

/-- What a line is completed to at once: commands while its first word is typed, then the words of
overloads or a refusal, then the values for an argument or what is said instead of them. -/
inductive AtOnce (offer : Offer) (nested : Bool) (line : List Char) : Completion → Prop
  | blank (hscan : Token.scan line = []) :
      AtOnce offer nested line (ofCommands offer nested "" (Text.width line))
  | word {t : Token} (hscan : Token.scan line = [t]) (hopen : endsWithSeparator line = false) :
      AtOnce offer nested line (ofCommands offer nested t.text t.start)
  | overload {head : Token} {tail : List Token} (hbegun : Begun line head tail)
      (hmany : 2 ≤ (offer.table.visibleOverloads head.text nested).length)
      (htyping : typingVariant line tail = true) :
      AtOnce offer nested line
        (ofVariants head (offer.table.visibleOverloads head.text nested)
          (titled head.text nested) (tail.head?.elim "" Token.text)
          (tail.head?.elim (Text.width line) Token.start) (Text.width line))
  | refused {head : Token} {tail : List Token} {panel : Panel} (hbegun : Begun line head tail)
      (huntyped : typedCommand? offer.table nested line head tail = none)
      (hnot : 2 ≤ (offer.table.visibleOverloads head.text nested).length →
        typingVariant line tail = false)
      (hexplains : Explains panel) :
      AtOnce offer nested line (closed panel (Text.width line))
  | row {head : Token} {tail : List Token} {c : Command} {current : Nat} {second : Bool}
      {p : Param} (hat : AtArgument offer nested line head tail c current second)
      (hp : c.params[current]? = some p) (hkind : p.kind = .row) :
      AtOnce offer nested line
        (ofValues (described (titled head.text nested) head c current second)
          (place line (tail.getLast?.getD head)) (rowsFor offer.rows (entered tail current)))
  | date {head : Token} {tail : List Token} {c : Command} {current : Nat} {second : Bool}
      {p : Param} (hat : AtArgument offer nested line head tail c current second)
      (hp : c.params[current]? = some p) (hkind : p.kind = .date) :
      AtOnce offer nested line
        (ofValues (described (titled head.text nested) head c current second)
          (place line (tail.getLast?.getD head))
          (offer.dates.filter (extends? (entered tail current))))
  | told {head : Token} {tail : List Token} {c : Command} {current : Nat} {second : Bool}
      (hat : AtArgument offer nested line head tail c current second) (message : String)
      (hother : ∀ p, c.params[current]? = some p → p.kind ≠ .row ∧ p.kind ≠ .date) :
      AtOnce offer nested line
        (closed { described (titled head.text nested) head c current second with
          message := some message } (place line (tail.getLast?.getD head)).start)

/-- A line is completed at once, or it waits for a sub-query of the command being typed. -/
theorem step_cases (offer : Offer) (nested : Bool) (line : List Char) :
    (∃ completion, step offer nested line = .done completion ∧
      AtOnce offer nested line completion) ∨
    ∃ head tail c current second, AtArgument offer nested line head tail c current second ∧
      (∀ p, c.params[current]? = some p → p.kind = .subQuery) ∧
      step offer nested line =
        .nest (described (titled head.text nested) head c current second)
          (subQueryToken? offer.table tail c second) := by
  cases hscan : Token.scan line with
  | nil => exact .inl ⟨_, step_of_nil hscan, .blank hscan⟩
  | cons head tail =>
    by_cases hmore : tail ≠ [] ∨ endsWithSeparator line = true
    · have hbegun : Begun line head tail := ⟨hscan, hmore⟩
      rw [step_of_head hscan hmore]
      rcases ofHead_cases offer nested line head tail with
        ⟨c, htyped, heq⟩ | ⟨_, hmany, htyping, heq⟩ | ⟨huntyped, hnot, panel, hexplains, heq⟩
      · have hat : AtArgument offer nested line head tail c _ _ := ⟨hbegun, htyped, rfl, rfl⟩
        rw [heq]
        rcases ofArguments_cases offer (titled head.text nested) rfl rfl with
          ⟨p, hp, hkind, heq⟩ | ⟨p, hp, hkind, heq⟩ | ⟨hslot, heq⟩ | ⟨message, hother, _, heq⟩
        · exact .inl ⟨_, heq, .row hat hp hkind⟩
        · exact .inl ⟨_, heq, .date hat hp hkind⟩
        · refine .inr ⟨head, tail, c, _, _, hat, ?_, heq⟩
          intro p hp
          rcases hslot with ⟨q, hq, hkind⟩ | ⟨hnone, _⟩
          · rw [hp, Option.some.injEq] at hq
            exact hq ▸ hkind
          · simp [hp] at hnone
        · exact .inl ⟨_, heq, .told hat message fun p hp => ⟨(hother p hp).1, (hother p hp).2.1⟩⟩
      · exact .inl ⟨_, heq, .overload hbegun hmany htyping⟩
      · exact .inl ⟨_, heq, .refused hbegun huntyped hnot hexplains⟩
    · obtain ⟨rfl, hopen⟩ : tail = [] ∧ endsWithSeparator line = false := by
        simpa using hmore
      exact .inl ⟨_, step_of_word hscan hopen, .word hscan hopen⟩

theorem atOnce_of_step {completion : Completion} (h : step offer nested line = .done completion) :
    AtOnce offer nested line completion := by
  rcases step_cases offer nested line with ⟨_, hdone, honce⟩ | ⟨_, _, _, _, _, _, _, hnest⟩
  · rw [Step.done.inj (h.symm.trans hdone)]
    exact honce
  · cases h.symm.trans hnest

theorem exists_atArgument_of_nest {panel : Panel} {start : Option Token}
    (h : step offer nested line = .nest panel start) :
    ∃ head tail c current second, AtArgument offer nested line head tail c current second ∧
      (∀ p, c.params[current]? = some p → p.kind = .subQuery) ∧
      panel = described (titled head.text nested) head c current second ∧
      start = subQueryToken? offer.table tail c second := by
  rcases step_cases offer nested line with
    ⟨_, hdone, _⟩ | ⟨head, tail, c, current, second, hat, hkind, hnest⟩
  · cases h.symm.trans hdone
  · obtain ⟨rfl, rfl⟩ := Step.nest.inj (h.symm.trans hnest)
    exact ⟨head, tail, c, current, second, hat, hkind, rfl, rfl⟩

end Completion

end Almanac
