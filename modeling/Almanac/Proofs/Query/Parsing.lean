import Almanac.Query.Parser
import Almanac.Proofs.Traversal

/-!
When tokens form a query. The tokens after the command word are the arguments' and then those of
the runs that must be sub-queries; in a query none of them is left over. What holds of a query
whenever it holds of its sub-queries, each with the run that it was read from, holds of every
query that is read.
-/

namespace Almanac

theorem lastIndex?_lt {α : Type} {p : α → Bool} {items : List α} {i : Nat}
    (h : lastIndex? p items = some i) : i < items.length := by
  induction items generalizing i with
  | nil => simp [lastIndex?] at h
  | cons x rest ih =>
    rw [lastIndex?] at h
    split at h
    · rename_i j hj
      obtain rfl := Option.some.inj h
      exact Nat.succ_lt_succ (ih hj)
    · split at h
      · obtain rfl := Option.some.inj h
        exact Nat.zero_lt_succ _
      · simp at h

theorem lastIndex?_eq_none {α : Type} {p : α → Bool} {items : List α}
    (h : ∀ x ∈ items, p x = false) : lastIndex? p items = none := by
  induction items with
  | nil => rfl
  | cons x rest ih =>
    obtain ⟨hx, hrest⟩ := List.forall_mem_cons.mp h
    simp [lastIndex?, ih hrest, hx]

/-- The last element with a property is where no later one has it. -/
theorem lastIndex?_append_cons {α : Type} {p : α → Bool} {x : α} {rest : List α}
    (hx : p x = true) (hrest : ∀ y ∈ rest, p y = false) (front : List α) :
    lastIndex? p (front ++ x :: rest) = some front.length := by
  induction front with
  | nil => simp [lastIndex?, lastIndex?_eq_none hrest, hx]
  | cons y front ih => simp [lastIndex?, ih]

theorem lastIndex?_map {α β : Type} (p : β → Bool) (f : α → β) (xs : List α) :
    lastIndex? p (xs.map f) = lastIndex? (fun x => p (f x)) xs := by
  induction xs with
  | nil => rfl
  | cons x rest ih => rw [List.map_cons, lastIndex?, lastIndex?, ih]

namespace Argument

variable {days : Nat} {command : String} {nested : Bool}

theorem bind_eq_ok_iff {param : Param} {token : Token} {a : Argument} :
    bind days command nested param token = .ok a ↔
      ∃ value, readValue days token.text param.kind = .ok value ∧
        a = ⟨param.name, param.kind, value, token.text, token.span⟩ := by
  rw [bind]
  cases readValue days token.text param.kind <;> simp [eq_comm]

/-- Binding stops with the shorter of the two lists. -/
theorem bindAll_eq_mapM (params : List Param) (tokens : List Token) :
    bindAll days command nested params tokens =
      (params.zip tokens).mapM fun bound => bind days command nested bound.1 bound.2 := by
  induction params generalizing tokens with
  | nil => simp [bindAll, pure, Except.pure]
  | cons param params ih =>
    cases tokens with
    | nil => simp [bindAll, pure, Except.pure]
    | cons token tokens =>
      rw [bindAll, List.zip_cons_cons, List.mapM_cons, ih]
      cases bind days command nested param token with
      | error e => rfl
      | ok a =>
        cases (params.zip tokens).mapM fun bound => bind days command nested bound.1 bound.2 <;>
          rfl

theorem bindAll_eq_ok_iff {params : List Param} {tokens : List Token} {args : List Argument} :
    bindAll days command nested params tokens = .ok args ↔
      List.Forall₂ (fun bound a => bind days command nested bound.1 bound.2 = .ok a)
        (params.zip tokens) args := by
  rw [bindAll_eq_mapM, mapM_eq_ok_iff]

def Fits (days : Nat) (kind : ParamKind) (text : String) : Prop :=
  ∃ value, readValue days text kind = .ok value

theorem exists_bindAll_iff {params : List Param} {tokens : List Token} :
    (∃ args, bindAll days command nested params tokens = .ok args) ↔
      ∀ bound ∈ params.zip tokens, Fits days bound.1.kind bound.2.text := by
  simp only [bindAll_eq_ok_iff, exists_forall₂_iff, bind_eq_ok_iff, Fits]
  refine forall₂_congr fun bound _ => ?_
  constructor
  · intro h
    obtain ⟨a, value, hvalue, _⟩ := h
    exact ⟨value, hvalue⟩
  · intro h
    obtain ⟨value, hvalue⟩ := h
    exact ⟨_, value, hvalue, rfl⟩

end Argument

namespace Command

theorem positional_eq_params {c : Command} (h : c.subQueryParams = []) :
    c.positional = c.params := by
  simp only [subQueryParams, List.filter_eq_nil_iff, decide_eq_true_eq] at h
  simpa only [positional, List.filter_eq_self, decide_eq_true_eq] using h

end Command

namespace Query

variable {table : CommandTable} {days lineLength : Nat} {nested : Bool}

theorem divideInTwo_whole {first last : Fault} {rest : List Token}
    (h : (divideInTwo table first last rest).fault = none) :
    ∃ i, secondStart? table rest = some (i + 1) ∧
      (divideInTwo table first last rest).runs = [rest.take (i + 1), rest.drop (i + 1)] := by
  rw [divideInTwo] at h ⊢
  split at h
  · split at h <;> simp at h
  · simp at h
  · rename_i i hstart
    exact ⟨i, hstart, rfl⟩

theorem divideInTwo_append {first last : Fault} {left right : List Token} (hleft : left ≠ [])
    (hstart : secondStart? table (left ++ right) = some left.length) :
    divideInTwo table first last (left ++ right) = ⟨[left, right], none⟩ := by
  obtain ⟨i, hlength⟩ : ∃ i, left.length = i + 1 :=
    Nat.exists_eq_add_one.mpr (List.length_pos_of_ne_nil hleft)
  simp only [divideInTwo, hstart, hlength]
  rw [← hlength, List.take_left, List.drop_left]

/-- Nothing wrong with a division means that its runs are all that follows the arguments. -/
theorem flatten_runs_divide {c : Command} {stop : Nat} {tail : List Token}
    (h : (divide table c nested stop tail).fault = none) :
    (divide table c nested stop tail).runs.flatten = tail.drop c.positional.length := by
  rw [divide] at h ⊢
  rcases hslots : c.subQueryParams with _ | ⟨first, _ | ⟨second, more⟩⟩
  · simp only [hslots, ite_eq_right_iff, reduceCtorEq, imp_false, Nat.not_lt] at h
    rw [Command.positional_eq_params hslots, List.drop_eq_nil_of_le h]
    rfl
  · simp only [hslots] at h ⊢
    split at h
    · simp at h
    · rename_i hrest
      rw [if_neg hrest]
      simp
  · simp only [hslots] at h ⊢
    obtain ⟨i, _, hruns⟩ := divideInTwo_whole h
    rw [hruns]
    simp only [List.flatten_cons, List.flatten_nil, List.append_nil, List.take_append_drop]

/-- There is a run for each sub-query. -/
theorem length_runs_divide {c : Command} {stop : Nat} {tail : List Token}
    (h : (divide table c nested stop tail).fault = none) :
    (divide table c nested stop tail).runs.length = min c.subQueryParams.length 2 := by
  rw [divide] at h ⊢
  rcases hslots : c.subQueryParams with _ | ⟨first, _ | ⟨second, more⟩⟩
  · simp
  · simp only [hslots] at h ⊢
    split at h
    · simp at h
    · rename_i hrest
      rw [if_neg hrest]
      simp
  · simp only [hslots] at h ⊢
    obtain ⟨i, _, hruns⟩ := divideInTwo_whole h
    rw [hruns]
    simp only [List.length_cons, List.length_nil]
    omega

/-- How a command word and the tokens after it are read, as a sequence of steps. -/
theorem ofTokens_cons (head : Token) (tail : List Token) :
    ofTokens table days lineLength nested (head :: tail) =
      match table.resolve head.text (tail.head?.map Token.text) nested with
      | none => .error (unresolved table nested head tail.head?)
      | some c =>
        if tail.length < c.required.length then
          .error ⟨.tooFewArguments c.name (c.required.map Param.name) tail.length, nested,
            runSpan head tail⟩
        else (do
          let division := divide table c nested (runSpan head tail).stop tail
          let subQueries ← division.runs.mapM (ofTokens table days lineLength true)
          division.fault.elim (.ok ()) .error
          let args ← Argument.bindAll days c.name nested c.positional tail
          pure ⟨c.name, c.discriminant, args, subQueries, runSpan head tail⟩) := by
  rw [ofTokens]
  simp only [mapM_attach _ (ofTokens table days lineLength true)]
  cases table.resolve head.text (tail.head?.map Token.text) nested with
  | none => rfl
  | some c =>
    simp only
    split
    · rfl
    · cases (divide table c nested (runSpan head tail).stop tail).runs.mapM
          (ofTokens table days lineLength true) with
      | error e => rfl
      | ok subQueries =>
        cases (divide table c nested (runSpan head tail).stop tail).fault with
        | some fault => rfl
        | none =>
          cases Argument.bindAll days c.name nested c.positional tail <;> rfl

/-- The conditions under which a command word and the tokens after it form a query, but for its
sub-queries: the command, the arguments and the runs left for the sub-queries. -/
structure Heads (table : CommandTable) (days : Nat) (nested : Bool) (head : Token)
    (tail : List Token) (c : Command) (args : List Argument) (runs : List (List Token)) :
    Prop where
  resolved : table.resolve head.text (tail.head?.map Token.text) nested = some c
  enough : c.required.length ≤ tail.length
  divided : divide table c nested (runSpan head tail).stop tail = ⟨runs, none⟩
  bound : Argument.bindAll days c.name nested c.positional tail = .ok args

theorem ofTokens_cons_eq_ok_iff {head : Token} {tail : List Token} {q : Query} :
    ofTokens table days lineLength nested (head :: tail) = .ok q ↔
      ∃ c args runs subQueries, Heads table days nested head tail c args runs ∧
        List.Forall₂ (fun run s => ofTokens table days lineLength true run = .ok s)
          runs subQueries ∧
        q = ⟨c.name, c.discriminant, args, subQueries, runSpan head tail⟩ := by
  rw [ofTokens]
  simp only [mapM_attach _ (ofTokens table days lineLength true), ← mapM_eq_ok_iff]
  constructor
  · intro h
    split at h
    · simp at h
    · rename_i c hc
      split at h
      · simp at h
      · rename_i hlength
        split at h
        · simp at h
        · rename_i subQueries hsubQueries
          split at h
          · simp at h
          · rename_i hfault
            split at h
            · simp at h
            · rename_i args hargs
              rw [Except.ok.injEq] at h
              refine ⟨c, args, _, subQueries, ⟨hc, Nat.le_of_not_lt hlength, ?_, hargs⟩,
                hsubQueries, h.symm⟩
              rw [← hfault]
  · intro hparts
    obtain ⟨c, args, runs, subQueries, hheads, hsubQueries, rfl⟩ := hparts
    simp only [hheads.resolved, if_neg (Nat.not_lt.mpr hheads.enough), hheads.divided,
      hsubQueries, hheads.bound]

theorem ofTokens_nil_ne_ok {q : Query} :
    ofTokens table days lineLength nested [] ≠ .ok q := by
  simp [ofTokens]

theorem parse_of_heads {line : String} {head : Token} {tail : List Token}
    (htokens : tokenize line = head :: tail) (c : Command) {args : List Argument}
    {runs : List (List Token)} (hheads : Heads table days nested head tail c args runs)
    {subQueries : List Query}
    (hsubs : List.Forall₂
      (fun run s => ofTokens table days (Text.byteLength line) true run = .ok s) runs subQueries) :
    parse table days nested line =
      .ok ⟨c.name, c.discriminant, args, subQueries, runSpan head tail⟩ := by
  rw [parse, htokens]
  exact ofTokens_cons_eq_ok_iff.mpr ⟨c, args, runs, subQueries, hheads, hsubs, rfl⟩

def Forms (table : CommandTable) (days lineLength : Nat) (nested : Bool) (tokens : List Token) :
    Prop :=
  ∃ q, ofTokens table days lineLength nested tokens = .ok q

/-- The tokens may follow the word of a command, in a query that ends at the given byte. -/
structure Follows (table : CommandTable) (days lineLength : Nat) (nested : Bool) (stop : Nat)
    (c : Command) (tail : List Token) : Prop where
  enough : c.required.length ≤ tail.length
  whole : (divide table c nested stop tail).fault = none
  runs : ∀ run ∈ (divide table c nested stop tail).runs, Forms table days lineLength true run
  args : ∀ bound ∈ c.positional.zip tail, Argument.Fits days bound.1.kind bound.2.text

theorem forms_cons_iff {head : Token} {tail : List Token} :
    Forms table days lineLength nested (head :: tail) ↔
      ∃ c, table.resolve head.text (tail.head?.map Token.text) nested = some c ∧
        Follows table days lineLength nested (runSpan head tail).stop c tail := by
  simp only [Forms, ofTokens_cons_eq_ok_iff]
  constructor
  · intro hforms
    obtain ⟨q, c, args, runs, subQueries, hheads, hsubQueries, _⟩ := hforms
    refine ⟨c, hheads.resolved, hheads.enough, ?_, ?_, ?_⟩
    · rw [hheads.divided]
    · rw [hheads.divided]
      exact exists_forall₂_iff.mp ⟨subQueries, hsubQueries⟩
    · exact Argument.exists_bindAll_iff.mp ⟨args, hheads.bound⟩
  · intro hcommand
    obtain ⟨c, hresolved, h⟩ := hcommand
    obtain ⟨subQueries, hsubQueries⟩ := exists_forall₂_iff.mpr h.runs
    obtain ⟨args, hargs⟩ := Argument.exists_bindAll_iff.mpr h.args
    refine ⟨_, c, args, _, subQueries, ⟨hresolved, h.enough, ?_, hargs⟩, hsubQueries, rfl⟩
    rw [← h.whole]

theorem isValid_iff {line : String} :
    isValid table days nested line = true ↔
      Forms table days (Text.byteLength line) nested (tokenize line) := by
  rw [isValid, Forms, ← Query.parse]
  split <;> simp [*]

theorem not_forms_nil : ¬ Forms table days lineLength nested [] :=
  fun ⟨_, hq⟩ => ofTokens_nil_ne_ok hq

theorem divide_of_no_slot {c : Command} (h : c.subQueryParams = []) (stop : Nat)
    (tail : List Token) :
    divide table c nested stop tail =
      ⟨[], if c.params.length < tail.length then some (tooMany c nested tail) else none⟩ := by
  simp only [divide, h]

theorem divide_of_one_slot {c : Command} {slot : Param} (h : c.subQueryParams = [slot])
    (stop : Nat) (tail : List Token) :
    divide table c nested stop tail =
      if (tail.drop c.positional.length).isEmpty then ⟨[], some (missing c slot nested stop)⟩
      else ⟨[tail.drop c.positional.length], none⟩ := by
  simp only [divide, h]

theorem divide_of_two_slots {c : Command} {first second : Param}
    (h : c.subQueryParams = [first, second]) (stop : Nat) (tail : List Token) :
    divide table c nested stop tail =
      divideInTwo table (missing c first nested stop) (missing c second nested stop)
        (tail.drop c.positional.length) := by
  simp only [divide, h]
  rfl

/-- Without sub-queries there is a token for every required parameter and none for no parameter. -/
theorem follows_of_no_slot {c : Command} (h : c.subQueryParams = []) {stop : Nat}
    {tail : List Token} :
    Follows table days lineLength nested stop c tail ↔
      (c.required.length ≤ tail.length ∧ tail.length ≤ c.params.length) ∧
        ∀ bound ∈ c.params.zip tail, Argument.Fits days bound.1.kind bound.2.text := by
  have hpositional := Command.positional_eq_params h
  constructor
  · intro hfollows
    obtain ⟨henough, hwhole, _, hargs⟩ := hfollows
    rw [divide_of_no_slot h] at hwhole
    rw [hpositional] at hargs
    refine ⟨⟨henough, ?_⟩, hargs⟩
    by_contra hlong
    simp [Nat.lt_of_not_le hlong] at hwhole
  · intro hparts
    obtain ⟨⟨henough, hshort⟩, hargs⟩ := hparts
    refine ⟨henough, ?_, ?_, hpositional ▸ hargs⟩
    · rw [divide_of_no_slot h, if_neg (Nat.not_lt.mpr hshort)]
    · simp [divide_of_no_slot h]

/-- A single sub-query takes all that the arguments leave. -/
theorem follows_of_one_slot {c : Command} {slot : Param} (h : c.subQueryParams = [slot])
    {stop : Nat} {tail : List Token} :
    Follows table days lineLength nested stop c tail ↔
      c.required.length ≤ tail.length ∧
        Forms table days lineLength true (tail.drop c.positional.length) ∧
        ∀ bound ∈ c.positional.zip tail, Argument.Fits days bound.1.kind bound.2.text := by
  constructor
  · intro hfollows
    obtain ⟨henough, hwhole, hruns, hargs⟩ := hfollows
    rw [divide_of_one_slot h] at hwhole hruns
    split at hwhole
    · simp at hwhole
    · rename_i hrest
      rw [if_neg hrest] at hruns
      exact ⟨henough, hruns _ List.mem_cons_self, hargs⟩
  · intro hparts
    obtain ⟨henough, hforms, hargs⟩ := hparts
    have hrest : ¬ (tail.drop c.positional.length).isEmpty := by
      intro hempty
      rw [List.isEmpty_iff.mp hempty] at hforms
      exact not_forms_nil hforms
    refine ⟨henough, ?_, ?_, hargs⟩
    · rw [divide_of_one_slot h, if_neg hrest]
    · rw [divide_of_one_slot h, if_neg hrest]
      simpa using hforms

/-- Two sub-queries meet at the last command word. -/
theorem follows_of_two_slots {c : Command} {first second : Param}
    (h : c.subQueryParams = [first, second]) {stop : Nat} {tail : List Token} :
    Follows table days lineLength nested stop c tail ↔
      c.required.length ≤ tail.length ∧
        (∃ left right, tail.drop c.positional.length = left ++ right ∧
          secondStart? table (left ++ right) = some left.length ∧
          Forms table days lineLength true left ∧ Forms table days lineLength true right) ∧
        ∀ bound ∈ c.positional.zip tail, Argument.Fits days bound.1.kind bound.2.text := by
  have hdivide : divide table c nested stop tail = _ := divide_of_two_slots h stop tail
  constructor
  · intro hfollows
    obtain ⟨henough, hwhole, hruns, hargs⟩ := hfollows
    rw [hdivide] at hwhole hruns
    obtain ⟨i, hstart, hboth⟩ := divideInTwo_whole hwhole
    rw [hboth] at hruns
    refine ⟨henough, ⟨_, _, (List.take_append_drop (i + 1) _).symm, ?_, hruns _ (by simp),
      hruns _ (by simp)⟩, hargs⟩
    have hlt : i + 1 < (tail.drop c.positional.length).length := lastIndex?_lt hstart
    rw [List.take_append_drop, hstart, List.length_take, Nat.min_eq_left (Nat.le_of_lt hlt)]
  · intro hparts
    obtain ⟨henough, ⟨left, right, hrest, hstart, hleft, hright⟩, hargs⟩ := hparts
    have hne : left ≠ [] := by
      intro heq
      subst heq
      exact not_forms_nil hleft
    rw [hrest, divideInTwo_append hne hstart] at hdivide
    refine ⟨henough, by rw [hdivide], ?_, hargs⟩
    rw [hdivide]
    simp [hleft, hright]

/-- An induction on tokens along the runs that they can be divided into. -/
theorem tokens_induct (table : CommandTable) {motive : Bool → List Token → Prop}
    (nil : ∀ nested, motive nested [])
    (cons : ∀ nested head tail,
      (∀ c stop, ∀ run ∈ (divide table c nested stop tail).runs, motive true run) →
        motive nested (head :: tail))
    (nested : Bool) (tokens : List Token) : motive nested tokens := by
  induction hn : tokens.length using Nat.strongRecOn generalizing nested tokens with
  | ind n ih =>
    cases tokens with
    | nil => exact nil nested
    | cons head tail =>
      refine cons nested head tail fun c stop run hrun => ?_
      have hle := length_le_of_mem_divide hrun
      rw [List.length_cons] at hn
      exact ih run.length (by omega) true run rfl

/-- What holds of a query whenever it holds of its sub-queries holds of every query that is
read. -/
theorem ofTokens_induct {motive : Bool → List Token → Query → Prop}
    (node : ∀ nested head tail c args runs subQueries,
      Heads table days nested head tail c args runs →
      List.Forall₂ (fun run s => ofTokens table days lineLength true run = .ok s ∧
        motive true run s) runs subQueries →
      motive nested (head :: tail)
        ⟨c.name, c.discriminant, args, subQueries, runSpan head tail⟩)
    {tokens : List Token} {q : Query}
    (h : ofTokens table days lineLength nested tokens = .ok q) : motive nested tokens q := by
  induction nested, tokens using tokens_induct table generalizing q with
  | nil nested => exact absurd h ofTokens_nil_ne_ok
  | cons nested head tail ih =>
    obtain ⟨c, args, runs, subQueries, hheads, hsubQueries, rfl⟩ := ofTokens_cons_eq_ok_iff.mp h
    refine node nested head tail c args runs subQueries hheads ?_
    have hruns : ∀ run ∈ runs, ∀ q, ofTokens table days lineLength true run = .ok q →
        motive true run q := by
      intro run hrun q hq
      refine ih c (runSpan head tail).stop run ?_ hq
      rw [hheads.divided]
      exact hrun
    rw [List.forall₂_iff_get] at hsubQueries ⊢
    refine ⟨hsubQueries.1, fun i hrun hsub => ?_⟩
    have hread := hsubQueries.2 i hrun hsub
    exact ⟨hread, hruns _ (List.get_mem runs ⟨i, hrun⟩) _ hread⟩

end Query

end Almanac
