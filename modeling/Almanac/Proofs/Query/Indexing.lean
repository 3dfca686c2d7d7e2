import Almanac.Proofs.Query.Parsing

/-!
Reading by positions. Tokens, parameters and names are taken here by their positions in lists, and
runs of them by the positions where they start and stop; a position that lies beyond what is there
leaves no answer at all. There is an answer for all tokens, and it is the one that the parser
gives. So the parser never reaches beyond its lists, and queries are nested less deep than there
are tokens.
-/

namespace Almanac

section

variable {α : Type} {xs : List α}

def slice? (xs : List α) (start stop : Nat) : Option (List α) :=
  if start ≤ stop ∧ stop ≤ xs.length then some ((xs.take stop).drop start) else none

theorem slice?_zero {stop : Nat} (h : stop ≤ xs.length) :
    slice? xs 0 stop = some (xs.take stop) := by
  rw [slice?, if_pos ⟨Nat.zero_le stop, h⟩, List.drop_zero]

theorem slice?_length {start : Nat} (h : start ≤ xs.length) :
    slice? xs start xs.length = some (xs.drop start) := by
  rw [slice?, if_pos ⟨h, Nat.le_refl _⟩, List.take_length]

/-- Behind its first element a list has any number of them that there are. -/
theorem slice?_cons_one (x : α) (xs : List α) (count : Nat) :
    slice? (x :: xs) 1 (min (1 + count) (x :: xs).length) = some (xs.take count) := by
  have hstop : min (1 + count) (x :: xs).length = min count xs.length + 1 := by
    rw [List.length_cons]
    omega
  rw [hstop, slice?, if_pos (by rw [List.length_cons]; omega), List.take_succ_cons,
    List.drop_succ_cons, List.drop_zero, ← List.take_eq_take_min]

/-- What the first elements leave over of a list, if there are as many. -/
theorem slice?_cons_length (x : α) (xs : List α) (count : Nat) :
    slice? (x :: xs) (min (1 + count) (x :: xs).length) (x :: xs).length =
      some (xs.drop count) := by
  rw [slice?_length (Nat.min_le_right _ _)]
  have hstart : min (1 + count) (x :: xs).length = min count xs.length + 1 := by
    rw [List.length_cons]
    omega
  rw [hstart, List.drop_succ_cons, ← List.drop_eq_drop_min]

end

namespace Query

/-- What is read by positions: an answer that may be a fault, or none at all. -/
abbrev Indexed (α : Type) : Type := ExceptT Fault Option α

namespace Indexed

variable {α β : Type}

def found (x : Option α) : Indexed α := ExceptT.lift x

def answer (x : Except Fault α) : Indexed α := ExceptT.mk (some x)

theorem found_bind {x : Option α} {a : α} (h : x = some a) (f : α → Indexed β) :
    found x >>= f = f a := by
  subst h
  rfl

theorem answer_bind (x : Except Fault α) {f : α → Indexed β} {g : α → Except Fault β}
    (h : ∀ a, f a = answer (g a)) : answer x >>= f = answer (x >>= g) := by
  cases x with
  | error fault => rfl
  | ok a => exact h a

theorem mapM_answer {f : α → Indexed β} {g : α → Except Fault β} {items : List α}
    (h : ∀ item ∈ items, f item = answer (g item)) : items.mapM f = answer (items.mapM g) := by
  induction items with
  | nil => rfl
  | cons item rest ih =>
    obtain ⟨hitem, hrest⟩ := List.forall_mem_cons.mp h
    rw [List.mapM_cons, List.mapM_cons, hitem]
    refine answer_bind _ fun b => ?_
    rw [ih hrest]
    exact answer_bind _ fun _ => rfl

end Indexed

variable {table : CommandTable} {days lineLength : Nat} {nested : Bool}

def unresolved? (table : CommandTable) (nested : Bool) (tokens : List Token) : Option Fault := do
  let head ← tokens[0]?
  let visible := table.visibleOverloads head.text nested
  if (table.overloads head.text).isEmpty then
    pure ⟨.unknownCommand head.text, nested, head.span⟩
  else if visible.isEmpty then
    pure ⟨.notSubQuery head.text, nested, head.span⟩
  else
    let first ← visible[0]?
    let expected := visible.filterMap Command.discriminant
    let leading := first.params.head?.filter fun p => p.kind = .enum
    let param := leading.elim "variant" Param.name
    match tokens[1]? with
    | some next =>
      pure ⟨.unknownVariant head.text param next.text expected, nested,
        head.span.cover next.span⟩
    | none => pure ⟨.missingVariant head.text param expected, nested, head.span⟩

def tooMany? (c : Command) (nested : Bool) (tokens : List Token) : Option Fault := do
  let extra ← slice? tokens (1 + c.params.length) tokens.length
  let first ← extra[0]?
  let last ← extra[extra.length - 1]?
  pure ⟨.tooManyArguments c.name (c.params.map Param.name) (tokens.length - 1), nested,
    first.span.cover last.span⟩

def divideInTwo? (table : CommandTable) (first last : Fault) (rest : List Token) :
    Option Division :=
  match secondStart? table rest with
  | none => if rest.isEmpty then some ⟨[], some first⟩ else some ⟨[rest], some last⟩
  | some 0 => some ⟨[], some last⟩
  | some (i + 1) => do
    let left ← slice? rest 0 (i + 1)
    let right ← slice? rest (i + 1) rest.length
    pure ⟨[left, right], none⟩

def divide? (table : CommandTable) (c : Command) (nested : Bool) (stop ownEnd : Nat)
    (tokens : List Token) : Option Division :=
  let slots := c.subQueryParams
  match slots.length with
  | 0 => do
    if c.params.length < tokens.length - 1 then
      pure ⟨[], some (← tooMany? c nested tokens)⟩
    else pure ⟨[], none⟩
  | 1 => do
    let param ← slots[0]?
    let rest ← slice? tokens ownEnd tokens.length
    if rest.isEmpty then pure ⟨[], some (missing c param nested stop)⟩
    else pure ⟨[rest], none⟩
  | _ => do
    let first ← slots[0]?
    let last ← slots[slots.length - 1]?
    let rest ← slice? tokens ownEnd tokens.length
    divideInTwo? table (missing c first nested stop) (missing c last nested stop) rest

def readNode (table : CommandTable) (days lineLength : Nat) (sub : List Token → Indexed Query)
    (nested : Bool) (tokens : List Token) : Indexed Query :=
  match tokens[0]? with
  | none => throw ⟨.emptyQuery, nested, .empty lineLength⟩
  | some head =>
    match table.resolve head.text (tokens[1]?.map Token.text) nested with
    | none => do throw (← Indexed.found (unresolved? table nested tokens))
    | some c => do
      let last ← Indexed.found tokens[tokens.length - 1]?
      let span := head.span.cover last.span
      let required := c.required.map Param.name
      let received := tokens.length - 1
      if received < required.length then
        -- The message lists the names of the arguments that are given and of those that are not.
        let given ← Indexed.found (slice? required 0 (min received required.length))
        let _missing ← Indexed.found (slice? required given.length required.length)
        throw ⟨.tooFewArguments c.name required received, nested, span⟩
      else
        let ownEnd := min (1 + c.positional.length) tokens.length
        let division ← Indexed.found (divide? table c nested span.stop ownEnd tokens)
        let subQueries ← division.runs.mapM sub
        Indexed.answer (division.fault.elim (.ok ()) .error)
        let own ← Indexed.found (slice? tokens 1 ownEnd)
        let args ← Indexed.answer (Argument.bindAll days c.name nested c.positional own)
        pure ⟨c.name, c.discriminant, args, subQueries, span⟩

def readWithin (table : CommandTable) (days lineLength : Nat) :
    Nat → Bool → List Token → Indexed Query
  | 0 => fun _ _ => ExceptT.mk none
  | levels + 1 => readNode table days lineLength (readWithin table days lineLength levels true)

/-- Reads a line by positions. -/
def readLine (table : CommandTable) (days : Nat) (nested : Bool) (line : String) :
    Indexed Query :=
  let tokens := tokenize line
  readWithin table days (Text.byteLength line) (tokens.length + 1) nested tokens

/-! Every position is in range -/

theorem unresolved?_cons (head : Token) (tail : List Token) :
    unresolved? table nested (head :: tail) =
      some (unresolved table nested head tail.head?) := by
  simp only [unresolved?, unresolved, List.getElem?_cons_zero, Option.bind_eq_bind,
    Option.bind_some]
  cases hvisible : table.visibleOverloads head.text nested with
  | nil =>
    split
    · simp [*]
    · simp [*]
  | cons c more =>
    have hoverloads : (table.overloads head.text).isEmpty = false := by
      have hmem : c ∈ table.overloads head.text :=
        (List.mem_filter.mp (hvisible ▸ List.mem_cons_self)).1
      exact List.isEmpty_eq_false_iff.mpr (List.ne_nil_of_mem hmem)
    simp only [hoverloads, List.isEmpty_cons, Bool.false_eq_true, if_false,
      List.getElem?_cons_zero, Option.bind_some]
    cases hparams : c.params with
    | nil => cases tail <;> rfl
    | cons p rest =>
      by_cases hkind : p.kind = .enum
      · cases tail <;> simp [Option.filter, hkind]
      · cases tail <;> simp [Option.filter, hkind]

theorem tooMany?_cons {c : Command} (head : Token) {tail : List Token}
    (h : c.params.length < tail.length) :
    tooMany? c nested (head :: tail) = some (tooMany c nested tail) := by
  obtain ⟨first, more, hextra⟩ : ∃ first more, tail.drop c.params.length = first :: more :=
    List.exists_cons_of_ne_nil (by rw [ne_eq, List.drop_eq_nil_iff]; omega)
  have hslice : slice? (head :: tail) (1 + c.params.length) (head :: tail).length =
      some (first :: more) := by
    rw [slice?_length (by rw [List.length_cons]; omega), Nat.add_comm, List.drop_succ_cons, hextra]
  have hlast : (first :: more)[(first :: more).length - 1]? = some (more.getLast?.getD first) := by
    rw [← List.getLast?_eq_getElem?, List.getLast?_cons]
  simp only [tooMany?, hslice, hlast, tooMany, hextra, Option.bind_eq_bind, Option.bind_some]
  rfl

theorem divideInTwo?_eq (first last : Fault) (rest : List Token) :
    divideInTwo? table first last rest = some (divideInTwo table first last rest) := by
  cases hstart : secondStart? table rest with
  | none =>
    simp only [divideInTwo?, divideInTwo, hstart]
    split <;> rfl
  | some i =>
    have hlt : i < rest.length := lastIndex?_lt hstart
    cases i with
    | zero => simp only [divideInTwo?, divideInTwo, hstart]
    | succ i =>
      simp only [divideInTwo?, divideInTwo, hstart, slice?_zero (Nat.le_of_lt hlt),
        slice?_length (Nat.le_of_lt hlt)]
      rfl

/-- The tokens behind those of the arguments are divided as the parser does it. -/
theorem divide?_cons (c : Command) (stop : Nat) (head : Token) (tail : List Token) :
    divide? table c nested stop (min (1 + c.positional.length) (head :: tail).length)
        (head :: tail) =
      some (divide table c nested stop tail) := by
  have hrest := slice?_cons_length head tail c.positional.length
  rw [divide?, hrest]
  rcases hslots : c.subQueryParams with _ | ⟨first, _ | ⟨second, more⟩⟩
  · rw [divide_of_no_slot hslots]
    by_cases hmany : c.params.length < tail.length
    · simp [hmany, tooMany?_cons head hmany]
    · simp [hmany]
  · rw [divide_of_one_slot hslots]
    simp only [List.length_singleton, List.getElem?_cons_zero, Option.bind_eq_bind,
      Option.bind_some, Option.pure_def]
    split <;> rfl
  · have hlast : (first :: second :: more)[(first :: second :: more).length - 1]? =
        some (more.getLastD second) := by
      rw [← List.getLast?_eq_getElem?, List.getLast?_cons_cons, List.getLast?_cons,
        List.getLastD_eq_getLast?]
    rw [divide, hslots, hlast]
    exact divideInTwo?_eq _ _ _

theorem bindAll_take {command : String} {params : List Param} {tokens : List Token} :
    Argument.bindAll days command nested params (tokens.take params.length) =
      Argument.bindAll days command nested params tokens := by
  have hzip : params.zip (tokens.take params.length) = params.zip tokens := by
    conv_rhs => rw [List.zip_eq_zip_take_min]
    rw [List.zip_eq_zip_take_min, List.length_take, List.take_take]
    congr 2 <;> omega
  rw [Argument.bindAll_eq_mapM, Argument.bindAll_eq_mapM, hzip]

/-- A query is read as the parser reads it, if its sub-queries are. -/
theorem readNode_cons {sub : List Token → Indexed Query} (head : Token) (tail : List Token)
    (hsub : ∀ c stop, ∀ run ∈ (divide table c nested stop tail).runs,
      sub run = Indexed.answer (ofTokens table days lineLength true run)) :
    readNode table days lineLength sub nested (head :: tail) =
      Indexed.answer (ofTokens table days lineLength nested (head :: tail)) := by
  have hlast : (head :: tail)[(head :: tail).length - 1]? = some (tail.getLast?.getD head) := by
    rw [← List.getLast?_eq_getElem?, List.getLast?_cons]
  have hnext : (head :: tail)[1]? = tail.head? := by
    cases tail <;> rfl
  rw [readNode, ofTokens_cons]
  simp only [List.getElem?_cons_zero, hnext]
  cases table.resolve head.text (tail.head?.map Token.text) nested with
  | none => exact Indexed.found_bind (unresolved?_cons head tail) _
  | some c =>
    simp only
    have hrequired : c.required.length = (c.required.map Param.name).length :=
      (List.length_map Param.name).symm
    rw [Indexed.found_bind hlast, hrequired]
    generalize c.required.map Param.name = required
    simp only [List.length_cons, Nat.add_sub_cancel]
    split
    · have hgiven : slice? required 0 (min tail.length required.length) =
          some (required.take (min tail.length required.length)) :=
        slice?_zero (Nat.min_le_right _ _)
      have hmissing : slice? required (required.take (min tail.length required.length)).length
          required.length = some (required.drop _) :=
        slice?_length (List.length_take_le' _ _)
      rw [Indexed.found_bind hgiven, Indexed.found_bind hmissing]
      rfl
    · have hdivide := @divide?_cons table nested c (runSpan head tail).stop head tail
      have hown := slice?_cons_one head tail c.positional.length
      rw [List.length_cons] at hdivide hown
      rw [← runSpan, Indexed.found_bind hdivide, Indexed.mapM_answer (hsub c _)]
      refine Indexed.answer_bind _ fun subQueries => ?_
      refine Indexed.answer_bind _ fun _ => ?_
      rw [Indexed.found_bind hown, bindAll_take]
      exact Indexed.answer_bind _ fun _ => rfl

/-- As many levels as there are tokens suffice. -/
theorem readWithin_eq (nested : Bool) (tokens : List Token) {levels : Nat}
    (hlevels : tokens.length < levels) :
    readWithin table days lineLength levels nested tokens =
      Indexed.answer (ofTokens table days lineLength nested tokens) := by
  induction nested, tokens using tokens_induct table generalizing levels with
  | nil nested =>
    obtain ⟨levels, rfl⟩ := Nat.exists_eq_add_one.mpr hlevels
    rw [readWithin, ofTokens]
    rfl
  | cons nested head tail ih =>
    obtain ⟨levels, rfl⟩ := Nat.exists_eq_add_one.mpr (Nat.zero_lt_of_lt hlevels)
    rw [readWithin]
    refine readNode_cons head tail fun c stop run hrun => ih c stop run hrun ?_
    have hle := length_le_of_mem_divide hrun
    rw [List.length_cons] at hlevels
    omega

theorem readLine_eq (line : String) :
    readLine table days nested line = Indexed.answer (parse table days nested line) :=
  readWithin_eq nested (tokenize line) (Nat.lt_succ_self _)

end Query

end Almanac
