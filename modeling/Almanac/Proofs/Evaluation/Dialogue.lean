import Almanac.Proofs.Evaluation.Stepwise
import Almanac.Proofs.Query.Tree

/-!
Evaluation as a dialogue with the services and with the one who looks at the outputs. A sub-query
is evaluated in a dialogue of its own, without being asked to show its result, and its number is
taken from there. The services may answer as they like; they may also remember what they were
asked before. A dialogue always comes to an end, as no sub-query is asked for that is not there,
and with services that remember nothing it comes to the evaluation of the query.
-/

namespace Almanac

/-- The calls and the outputs of a computation one after another. What follows a call depends on
its answer. -/
inductive Dialogue (α : Type) where
  | locate (address : String) (next : Except String Coordinates → Dialogue α)
  | archive (query : Weather.ArchiveQuery) (next : Except String Float → Dialogue α)
  | display (output : Output) (next : Dialogue α)
  | finish (result : Except Diagnostic α)
  /-- A sub-query is asked for that is not there. -/
  | stuck

/-- Services that may remember what they were asked. -/
structure StatefulServices (σ : Type) where
  locate : String → σ → Except String Coordinates × σ
  archive : Weather.ArchiveQuery → σ → Except String Float × σ

def Services.stateless (services : Services) : StatefulServices Unit where
  locate address memory := (services.locate address, memory)
  archive query memory := (services.archive query, memory)

structure Outcome (σ α : Type) where
  result : Option (Except Diagnostic α)
  calls : List ServiceCall
  shown : List Output
  memory : σ

namespace Outcome

variable {σ α β : Type}

def called (call : ServiceCall) (o : Outcome σ α) : Outcome σ α :=
  { o with calls := call :: o.calls }

def displayed (output : Output) (o : Outcome σ α) : Outcome σ α :=
  { o with shown := output :: o.shown }

def andThen (o : Outcome σ α) (next : α → σ → Outcome σ β) : Outcome σ β :=
  match o.result with
  | none => ⟨none, o.calls, o.shown, o.memory⟩
  | some (.error e) => ⟨some (.error e), o.calls, o.shown, o.memory⟩
  | some (.ok value) =>
    let after := next value o.memory
    ⟨after.result, o.calls ++ after.calls, o.shown ++ after.shown, after.memory⟩

theorem called_andThen (call : ServiceCall) (o : Outcome σ α) (next : α → σ → Outcome σ β) :
    (o.called call).andThen next = (o.andThen next).called call := by
  obtain ⟨_ | _ | _, calls, shown, memory⟩ := o <;> rfl

theorem displayed_andThen (output : Output) (o : Outcome σ α) (next : α → σ → Outcome σ β) :
    (o.displayed output).andThen next = (o.andThen next).displayed output := by
  obtain ⟨_ | _ | _, calls, shown, memory⟩ := o <;> rfl

end Outcome

namespace Dialogue

variable {σ α β : Type} {services : StatefulServices σ}

def bind : Dialogue α → (α → Dialogue β) → Dialogue β
  | locate address next, f => locate address fun answer => (next answer).bind f
  | archive query next, f => archive query fun answer => (next answer).bind f
  | display output next, f => display output (next.bind f)
  | finish (.ok value), f => f value
  | finish (.error e), _ => finish (.error e)
  | stuck, _ => stuck

/-- Holds a dialogue with services that remember what they were asked before. -/
def run (services : StatefulServices σ) : Dialogue α → σ → Outcome σ α
  | locate address next, memory =>
    let (answer, memory) := services.locate address memory
    ((next answer).run services memory).called (.locate address)
  | archive query next, memory =>
    let (answer, memory) := services.archive query memory
    ((next answer).run services memory).called (.archive query)
  | display output next, memory => (next.run services memory).displayed output
  | finish result, memory => ⟨some result, [], [], memory⟩
  | stuck, memory => ⟨none, [], [], memory⟩

theorem run_bind (d : Dialogue α) (f : α → Dialogue β) (memory : σ) :
    (d.bind f).run services memory =
      (d.run services memory).andThen fun value => (f value).run services := by
  induction d generalizing memory with
  | locate address next ih =>
    exact (congrArg (Outcome.called _) (ih _ _)).trans (Outcome.called_andThen ..).symm
  | archive query next ih =>
    exact (congrArg (Outcome.called _) (ih _ _)).trans (Outcome.called_andThen ..).symm
  | display output next ih =>
    exact (congrArg (Outcome.displayed _) (ih _)).trans (Outcome.displayed_andThen ..).symm
  | finish result => cases result <;> rfl
  | stuck => rfl

def Finishes : Dialogue α → Prop
  | locate _ next => ∀ answer, (next answer).Finishes
  | archive _ next => ∀ answer, (next answer).Finishes
  | display _ next => next.Finishes
  | finish _ => True
  | stuck => False

theorem Finishes.bind {d : Dialogue α} {f : α → Dialogue β} (hd : d.Finishes)
    (hf : ∀ value, (f value).Finishes) : (d.bind f).Finishes := by
  induction d with
  | locate address next ih => exact fun answer => ih answer (hd answer)
  | archive query next ih => exact fun answer => ih answer (hd answer)
  | display output next ih => exact ih hd
  | finish result =>
    cases result with
    | error e => trivial
    | ok value => exact hf value
  | stuck => exact hd.elim

theorem Finishes.exists_result {d : Dialogue α} (h : d.Finishes) (memory : σ) :
    ∃ result, (d.run services memory).result = some result := by
  induction d generalizing memory with
  | locate address next ih => exact ih _ (h _) _
  | archive query next ih => exact ih _ (h _) _
  | display output next ih => exact ih h memory
  | finish result => exact ⟨result, rfl⟩
  | stuck => exact h.elim

/-! The dialogue of a query -/

def ofResult (x : Except Failure α) : Dialogue α :=
  finish (x.mapError Failure.toDiagnostic)

def conclude (print : Bool) (output : Output) (answer : Answer) : Dialogue Answer :=
  if print then display output (finish (.ok answer)) else finish (.ok answer)

def numberAt (subs : List (Query × Dialogue Answer)) (position : Nat) : Dialogue Float :=
  match subs[position]? with
  | none => stuck
  | some (s, d) => d.bind fun
    | .scalar x => finish (.ok x)
    | _ => finish (.error s.yieldsNoNumber)

def find (span : Span) (address : String) : Dialogue Coordinates :=
  locate address fun answer =>
    ofResult (answer.mapError fun reason => .unlocated address reason span)

def place (span : Span) : Location → Dialogue Coordinates
  | .point place => finish (.ok place)
  | .zip code => find span code
  | .city name => find span name

def fetch (span : Span) (query : Weather.ArchiveQuery) : Dialogue Float :=
  archive query fun answer => ofResult (answer.mapError fun reason => .unarchived reason span)

end Dialogue

namespace Environment

open Dialogue

/-- The dialogue of a query, where those of its sub-queries are given. -/
def converse (env : Environment) (print : Bool) (q : Query)
    (subs : List (Query × Dialogue Answer)) : Dialogue Answer :=
  match Action.ofQuery q with
  | .error lack => finish (.error lack.toDiagnostic)
  | .ok .help => display (.helpFor env.table) (finish (.ok .none))
  | .ok .upload => display .upload (finish (.ok .none))
  | .ok .clear => display .clear (finish (.ok .none))
  | .ok .table =>
    let grid := Grid.ofDataset env.dataset
    conclude print (.table grid) (.grid grid)
  | .ok (.measure m) =>
    (ofResult (env.measure m)).bind fun x => conclude print (.ofScalar m.row x) (.scalar x)
  | .ok (.chart row first last) =>
    let bars := (env.dataset.histogram row first last).map fun days =>
      days.map fun day => Bar.mk day.1 day.2
    (ofResult (bars.mapError fun e => .dataset e q.span)).bind fun bars =>
      conclude print (.histogram ("Histogram of `" ++ row ++ "`") row bars) (.bars bars)
  | .ok (.compareWith location m) =>
    (numberAt subs 0).bind fun x =>
      (place q.span location).bind fun place =>
        (ofResult ((env.dataset.archiveDays m).mapError fun e => .dataset e q.span)).bind
          fun days =>
            (fetch q.span ⟨place, m.kind, m.row, days.1, days.2⟩).bind fun archived =>
              let sentence := Sentence.withArchive m.kind m.row x place archived
              conclude print (.text sentence) (.text sentence)
  | .ok (.compareBoth left right) =>
    (numberAt subs 0).bind fun x => (numberAt subs 1).bind fun y =>
      let sentence := Sentence.ofBoth left.kind left.row x right.kind right.row y
      conclude print (.text sentence) (.text sentence)

mutual

def dialogue (env : Environment) (print : Bool) : Query → Dialogue Answer
  | ⟨command, variant, args, subQueries, span⟩ =>
    env.converse print ⟨command, variant, args, subQueries, span⟩ (env.dialogues subQueries)

def dialogues (env : Environment) : List Query → List (Query × Dialogue Answer)
  | [] => []
  | q :: rest => (q, env.dialogue false q) :: env.dialogues rest

end

variable {env : Environment} {q : Query} {print : Bool}

theorem dialogues_eq (qs : List Query) :
    env.dialogues qs = qs.map fun q => (q, env.dialogue false q) := by
  induction qs with
  | nil => rfl
  | cons q rest ih => rw [dialogues, ih, List.map_cons]

theorem dialogue_eq (q : Query) :
    env.dialogue print q =
      env.converse print q (q.subQueries.map fun s => (s, env.dialogue false s)) := by
  cases q
  rw [dialogue, dialogues_eq]

/-! No sub-query is missing -/

theorem finishes_conclude (output : Output) (answer : Answer) :
    (conclude print output answer).Finishes := by
  cases print <;> trivial

theorem finishes_place (span : Span) (location : Location) :
    (Dialogue.place span location).Finishes := by
  cases location with
  | point place => trivial
  | zip code => exact fun answer => trivial
  | city name => exact fun answer => trivial

theorem finishes_numberAt {subs : List (Query × Dialogue Answer)}
    (h : ∀ entry ∈ subs, entry.2.Finishes) {position : Nat} (hlt : position < subs.length) :
    (numberAt subs position).Finishes := by
  unfold numberAt
  rw [List.getElem?_eq_getElem hlt]
  refine (h _ (List.getElem_mem hlt)).bind fun answer => ?_
  cases answer <;> trivial

/-- A step needs as many sub-queries as there are measures that it compares. -/
theorem finishes_converse {subs : List (Query × Dialogue Answer)}
    (h : ∀ entry ∈ subs, entry.2.Finishes)
    (hsubs : ∀ action, Action.ofQuery q = .ok action → action.comparands.length ≤ subs.length) :
    (env.converse print q subs).Finishes := by
  unfold converse
  cases haction : Action.ofQuery q with
  | error lack => trivial
  | ok action =>
    have hnumber {position : Nat} (hlt : position < action.comparands.length) :=
      finishes_numberAt h (Nat.lt_of_lt_of_le hlt (hsubs action haction))
    cases action with
    | help | upload | clear => trivial
    | table => exact finishes_conclude _ _
    | measure m => exact Finishes.bind trivial fun x => finishes_conclude _ _
    | chart row first last => exact Finishes.bind trivial fun bars => finishes_conclude _ _
    | compareWith location m =>
      exact (hnumber Nat.zero_lt_one).bind fun x => (finishes_place q.span location).bind
        fun place => Finishes.bind trivial fun days => Finishes.bind (fun answer => trivial)
          fun archived => finishes_conclude _ _
    | compareBoth left right =>
      exact (hnumber Nat.zero_lt_two).bind fun x => (hnumber Nat.one_lt_two).bind fun y =>
        finishes_conclude _ _

theorem finishes_dialogue (print : Bool) (q : Query) : (env.dialogue print q).Finishes := by
  induction q using Query.induct generalizing print with
  | node q ih =>
    rw [dialogue_eq]
    refine finishes_converse (fun entry hentry => ?_) fun action haction => ?_
    · obtain ⟨s, hs, rfl⟩ := List.mem_map.mp hentry
      exact ih s hs false
    · rw [List.length_map]
      by_cases hcompares : action.comparands = []
      · simp [hcompares]
      · exact Nat.le_of_eq (forall₂_comparands haction hcompares).length_eq.symm

end Environment

/-! The dialogue with services that remember nothing -/

namespace Dialogue

variable {α β : Type} {services : Services} {d : Dialogue α} {c : Course α}

/-- With services that remember nothing, what comes of the dialogue is the course. -/
def Realizes (services : Services) (d : Dialogue α) (c : Course α) : Prop :=
  d.run services.stateless () = ⟨some c.result, c.calls, c.shown, ()⟩

theorem Realizes.bind {f : α → Dialogue β} {next : α → Course β} (hd : d.Realizes services c)
    (hf : ∀ value, (f value).Realizes services (next value)) :
    (d.bind f).Realizes services (c.andThen next) := by
  rw [Realizes, run_bind, hd, Course.andThen]
  cases hresult : c.result with
  | error e => rfl
  | ok value =>
    have hnext : (f value).run services.stateless () = _ := hf value
    simp only [Outcome.andThen, hnext]

theorem realizes_ofResult (x : Except Failure α) :
    (ofResult x).Realizes services (Course.ofConsultation (.of x)) :=
  rfl

theorem realizes_conclude (print : Bool) (output : Output) (answer : Answer) :
    (conclude print output answer).Realizes services (Course.conclude print output answer) := by
  cases print <;> rfl

end Dialogue

namespace Environment

open Dialogue

variable {env : Environment} {q : Query}

theorem realizes_place (span : Span) (location : Location) :
    (Dialogue.place span location).Realizes env.services
      (Course.ofConsultation (env.locate span location)) := by
  cases location <;> rfl

/-- The number of a sub-query is found in its dialogue. -/
theorem realizes_numberAt {subs : List Query} {evaluate : Query → Course Answer}
    {talk : Query → Dialogue Answer} {position : Nat} {s : Query} (hs : subs[position]? = some s)
    (h : (talk s).Realizes env.services (evaluate s)) :
    (numberAt (subs.map fun s => (s, talk s)) position).Realizes env.services
      (s.numberBy evaluate) := by
  have hentry : (subs.map fun s => (s, talk s))[position]? = some (s, talk s) := by
    rw [List.getElem?_map, hs, Option.map_some]
  unfold numberAt Query.numberBy
  rw [hentry]
  refine h.bind fun answer => ?_
  cases answer <;> rfl

theorem realizes_converse {evaluate : Query → Course Answer} {talk : Query → Dialogue Answer}
    {print : Bool} {c : Course Answer}
    (h : ∀ s ∈ q.subQueries, (talk s).Realizes env.services (evaluate s))
    (hc : env.evaluateBy? evaluate print q = some c) :
    (env.converse print q (q.subQueries.map fun s => (s, talk s))).Realizes env.services c := by
  unfold evaluateBy? at hc
  unfold converse
  cases haction : Action.ofQuery q with
  | error lack =>
    rw [haction] at hc
    obtain rfl := Option.some.inj hc
    rfl
  | ok action =>
    rw [haction] at hc
    have hnumber {position : Nat} {s : Query} (hs : q.subQueries[position]? = some s) :=
      realizes_numberAt hs (h s (List.mem_of_getElem? hs))
    cases action with
    | help | upload | clear =>
      obtain rfl := Option.some.inj hc
      rfl
    | table =>
      obtain rfl := Option.some.inj hc
      exact realizes_conclude print _ _
    | measure m =>
      obtain rfl := Option.some.inj hc
      rw [perform, course_settle]
      exact (realizes_ofResult _).bind fun x => realizes_conclude print _ _
    | chart row first last =>
      obtain rfl := Option.some.inj hc
      rw [perform, course_settle]
      exact (realizes_ofResult _).bind fun bars => realizes_conclude print _ _
    | compareWith location m =>
      obtain ⟨s, hs, hc⟩ := Option.bind_eq_some_iff.mp hc
      obtain rfl := Option.some.inj hc
      exact (hnumber hs).bind fun x => (realizes_place q.span location).bind fun place =>
        (realizes_ofResult _).bind fun days => Realizes.bind rfl fun archived =>
          realizes_conclude print _ _
    | compareBoth left right =>
      obtain ⟨first, hfirst, hc⟩ := Option.bind_eq_some_iff.mp hc
      obtain ⟨second, hsecond, hc⟩ := Option.bind_eq_some_iff.mp hc
      obtain rfl := Option.some.inj hc
      exact (hnumber hfirst).bind fun x => (hnumber hsecond).bind fun y =>
        realizes_conclude print _ _

/-- The dialogue of a query comes to its evaluation. -/
theorem realizes_evaluate (env : Environment) (print : Bool) (q : Query) :
    (env.dialogue print q).Realizes env.services (env.evaluate print q).course := by
  induction q using Query.induct generalizing print with
  | node q ih =>
    rw [dialogue_eq]
    exact realizes_converse (fun s hs => ih s hs false) (evaluateBy?_evaluate env print q)

end Environment

end Almanac
