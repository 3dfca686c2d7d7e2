import Almanac.Proofs.Evaluation.Dialogue

/-!
Asking for a result to be shown. Each command decides for itself what it shows, and the calls to
services stand between one output and the next. Still, whether a result is asked for decides about
outputs alone: without its outputs, the dialogue of a query is the same either way, so that it
makes the same calls, with the same answers, and ends alike. The commands without a result are the
ones that show their output in any case.
-/

namespace Almanac

def Outcome.unseen {σ α : Type} (o : Outcome σ α) : Outcome σ α := { o with shown := [] }

namespace Dialogue

variable {σ α β : Type} {services : StatefulServices σ}

def hush : Dialogue α → Dialogue α
  | locate address next => locate address fun answer => (next answer).hush
  | archive query next => archive query fun answer => (next answer).hush
  | display _ next => next.hush
  | finish result => finish result
  | stuck => stuck

def Silent (d : Dialogue α) : Prop := d.hush = d

/-! Outputs do not matter to what follows -/

theorem hush_bind (d : Dialogue α) (f : α → Dialogue β) :
    (d.bind f).hush = d.hush.bind fun value => (f value).hush := by
  induction d with
  | locate address next ih => exact congrArg (locate address) (funext ih)
  | archive query next ih => exact congrArg (archive query) (funext ih)
  | display output next ih => exact ih
  | finish result => cases result <;> rfl
  | stuck => rfl

/-- Nothing but what is shown depends on the outputs. -/
theorem run_hush (d : Dialogue α) (memory : σ) :
    d.hush.run services memory = (d.run services memory).unseen := by
  induction d generalizing memory with
  | locate address next ih => exact congrArg (Outcome.called _) (ih _ _)
  | archive query next ih => exact congrArg (Outcome.called _) (ih _ _)
  | display output next ih => exact ih memory
  | finish result => rfl
  | stuck => rfl

theorem Silent.shown {d : Dialogue α} (h : d.Silent) (memory : σ) :
    (d.run services memory).shown = [] := by
  rw [← h, run_hush]
  rfl

theorem Silent.bind {d : Dialogue α} {f : α → Dialogue β} (hd : d.Silent)
    (hf : ∀ value, (f value).Silent) : (d.bind f).Silent := by
  rw [Silent, hush_bind, hd]
  exact congrArg d.bind (funext hf)

end Dialogue

namespace Environment

open Dialogue

variable {env : Environment} {q : Query}

/-! Two dialogues of one query -/

theorem hush_conclude (print : Bool) (output : Output) (answer : Answer) :
    (conclude print output answer).hush = finish (.ok answer) := by
  cases print <;> rfl

/-- The result that is asked for may be shown, and nothing else is different. -/
theorem hush_converse (print : Bool) (subs : List (Query × Dialogue Answer)) :
    (env.converse print q subs).hush = (env.converse false q subs).hush := by
  unfold converse
  cases Action.ofQuery q with
  | error lack => rfl
  | ok action =>
    cases action with
    | help | upload | clear => rfl
    | table | measure | chart | compareWith | compareBoth =>
      simp only [hush_bind, hush_conclude]

theorem run_dialogue {σ : Type} (services : StatefulServices σ) (memory : σ) (print : Bool) :
    ((env.dialogue print q).run services memory).unseen =
      ((env.dialogue false q).run services memory).unseen := by
  rw [← run_hush, ← run_hush, dialogue_eq, dialogue_eq, hush_converse]

end Environment

/-! Commands and actions -/

def Action.command : Action → String
  | .help => "help"
  | .upload => "input"
  | .clear => "clear"
  | .table => "table"
  | .measure m => m.kind.word
  | .chart .. => "histogram"
  | .compareWith .. => "compare"
  | .compareBoth .. => "compare"

theorem Measure.command_eq {q : Query} {m : Measure} (h : Measure.ofQuery q = .ok m) :
    q.command = m.kind.word := by
  unfold Measure.ofQuery at h
  split at h
  · cases h
  · rename_i kind hkind
    split at h
    · cases h
    · have hm : m.kind = kind := by
        split at h <;> exact (Except.ok.inj h).symm ▸ rfl
      rw [hm]
      exact Aggregate.eq_word_of_ofWord? hkind

theorem Action.command_eq {q : Query} {action : Action} (h : Action.ofQuery q = .ok action) :
    q.command = action.command := by
  unfold Action.ofQuery at h
  split at h
  iterate 4
    · obtain rfl := Except.ok.inj h
      assumption
  · obtain ⟨row, -, rfl⟩ := map_eq_ok_iff.mp h
    assumption
  · split at h
    · cases h
    · obtain ⟨_, _, left, right, -, -, -, rfl⟩ := exists_of_bothOfQuery h
      assumption
    · obtain ⟨location, m, rfl⟩ := exists_of_withOfQuery h
      assumption
  · split at h
    · obtain ⟨m, hm, rfl⟩ := map_eq_ok_iff.mp h
      exact Measure.command_eq hm
    · cases h

/-! What is shown without being asked for -/

/-- The commands without a result, whose action is an output. -/
def Query.outputCommands : List String := ["help", "input", "clear"]

theorem Measure.command_not_mem {q : Query} {m : Measure} (h : Measure.ofQuery q = .ok m) :
    q.command ∉ Query.outputCommands := by
  rw [Measure.command_eq h]
  cases m.kind <;> decide

namespace Dialogue

theorem silent_numberAt {subs : List (Query × Dialogue Answer)}
    (h : ∀ entry ∈ subs, entry.2.Silent) (position : Nat) : (numberAt subs position).Silent := by
  unfold numberAt
  split
  · rfl
  · rename_i s d hentry
    refine (h (s, d) (List.mem_of_getElem? hentry)).bind fun answer => ?_
    cases answer <;> rfl

theorem silent_place (span : Span) (location : Location) : (place span location).Silent := by
  cases location <;> rfl

end Dialogue

namespace Environment

open Dialogue

variable {env : Environment} {q : Query}

theorem exists_converse_of_mem (env : Environment) (h : q.command ∈ Query.outputCommands) :
    ∃ output, ∀ print subs, env.converse print q subs = display output (finish (.ok .none)) := by
  simp only [Query.outputCommands, List.mem_cons, List.not_mem_nil, or_false] at h
  rcases h with hcommand | hcommand | hcommand
  · have haction : Action.ofQuery q = .ok .help := by simp [Action.ofQuery, hcommand]
    exact ⟨.helpFor env.table, fun print subs => by rw [converse, haction]⟩
  · have haction : Action.ofQuery q = .ok .upload := by simp [Action.ofQuery, hcommand]
    exact ⟨.upload, fun print subs => by rw [converse, haction]⟩
  · have haction : Action.ofQuery q = .ok .clear := by simp [Action.ofQuery, hcommand]
    exact ⟨.clear, fun print subs => by rw [converse, haction]⟩

/-- A step shows nothing if its sub-queries do not, where it takes numbers of them. -/
theorem silent_converse {subs : List (Query × Dialogue Answer)}
    (h : q.command ∉ Query.outputCommands)
    (hsubs : ∀ action, Action.ofQuery q = .ok action → action.comparands ≠ [] →
      ∀ entry ∈ subs, entry.2.Silent) :
    (env.converse false q subs).Silent := by
  unfold converse
  cases haction : Action.ofQuery q with
  | error lack => rfl
  | ok action =>
    rw [Action.command_eq haction] at h
    cases action with
    | help | upload | clear => exact absurd (by decide) h
    | table => rfl
    | measure m => exact Silent.bind rfl fun x => rfl
    | chart row first last => exact Silent.bind rfl fun bars => rfl
    | compareWith location m =>
      have hnumber := silent_numberAt (hsubs _ haction (List.cons_ne_nil _ _))
      exact (hnumber 0).bind fun x => (silent_place q.span location).bind fun place =>
        Silent.bind rfl fun days => Silent.bind rfl fun archived => rfl
    | compareBoth left right =>
      have hnumber := silent_numberAt (hsubs _ haction (List.cons_ne_nil _ _))
      exact (hnumber 0).bind fun x => (hnumber 1).bind fun y => rfl

/-- Induction on the query: the sub-queries that a comparison takes numbers of are for measures,
and so are none of the commands that show an output anyway. -/
theorem silent_dialogue (q : Query) (h : q.command ∉ Query.outputCommands) :
    (env.dialogue false q).Silent := by
  induction q using Query.induct with
  | node q ih =>
    rw [dialogue_eq]
    refine silent_converse h fun action haction hcompares entry hentry => ?_
    obtain ⟨s, hs, rfl⟩ := List.mem_map.mp hentry
    obtain ⟨m, -, hm⟩ := exists_mem_of_forall₂ (forall₂_comparands haction hcompares).flip hs
    exact ih s hs (Measure.command_not_mem hm)

/-- Whether a result is asked to be shown decides about outputs and about nothing else. Whatever
the services answer, also if they remember what they were asked, an evaluation makes the same
calls in the same order either way, and comes to a result or a diagnostic that is the same.
Without being asked it shows nothing, except for the three commands that have no result and whose
action is an output: they show it either way. With services that remember nothing, the dialogue is
the evaluation of the query. -/
theorem print_decides_outputs (env : Environment) (q : Query) :
    (∀ (σ : Type) (services : StatefulServices σ) (memory : σ),
      let quiet := (env.dialogue false q).run services memory
      let loud := (env.dialogue true q).run services memory
      (∃ result, quiet.result = some result ∧ loud.result = some result) ∧
      quiet.calls = loud.calls ∧ quiet.memory = loud.memory ∧
      quiet.shown = (if q.command ∈ Query.outputCommands then loud.shown else []) ∧
      (quiet.shown = [] ↔ q.command ∉ Query.outputCommands)) ∧
    ∀ print, (env.dialogue print q).run env.services.stateless () =
      ⟨some ((env.evaluate print q).result.mapError Failure.toDiagnostic),
        (env.evaluate print q).calls, (env.evaluate print q).shown, ()⟩ := by
  refine ⟨?_, fun print => realizes_evaluate env print q⟩
  intro σ services memory quiet loud
  have hunseen : loud.unseen = quiet.unseen := run_dialogue services memory true
  obtain ⟨result, hresult⟩ : ∃ result, quiet.result = some result :=
    (finishes_dialogue false q).exists_result memory
  refine ⟨⟨result, hresult, (congrArg Outcome.result hunseen).trans hresult⟩,
    (congrArg Outcome.calls hunseen).symm, (congrArg Outcome.memory hunseen).symm, ?_⟩
  by_cases h : q.command ∈ Query.outputCommands
  · obtain ⟨output, hconverse⟩ := exists_converse_of_mem env h
    have hshown (print : Bool) :
        ((env.dialogue print q).run services memory).shown = [output] := by
      rw [dialogue_eq, hconverse]
      rfl
    have hquiet : quiet.shown = [output] := hshown false
    have hloud : loud.shown = [output] := hshown true
    rw [if_pos h, hquiet, hloud]
    exact ⟨rfl, by simp [h]⟩
  · have hquiet : quiet.shown = [] := (silent_dialogue q h).shown memory
    rw [if_neg h]
    exact ⟨hquiet, by simp [hquiet, h]⟩

/-- The services count the calls that they get; a zip code is looked up, and the archive is asked
about all days. -/
theorem print_decides_outputs_zip :
    let sub : Query := ⟨"max", none, [⟨"row", .row, .row "t", "`t`", ⟨22, 25⟩⟩], [], ⟨18, 25⟩⟩
    let q : Query := ⟨"compare", some "zip",
      [⟨"location type", .enum, .enum "zip", "zip", ⟨8, 11⟩⟩,
        ⟨"zip code", .int, .number 66213, "66213", ⟨12, 17⟩⟩], [sub], ⟨0, 25⟩⟩
    let counting : StatefulServices Nat :=
      ⟨fun _ n => (.ok ⟨39, -95⟩, n + 1), fun _ n => (.ok 60, n + 1)⟩
    let quiet := (isolated.dialogue false q).run counting 0
    quiet.calls = [.locate "66213",
      .archive ⟨⟨39, -95⟩, .max, "t", "2024-04-24", "2024-04-25"⟩] ∧
      quiet.memory = 2 ∧ quiet.shown = [] := by
  intro sub q counting quiet
  obtain ⟨-, hcalls, hmemory, -, hshown⟩ := (print_decides_outputs isolated q).1 Nat counting 0
  exact ⟨hcalls.trans (by decide +kernel), hmemory.trans (by decide +kernel),
    hshown.mpr (by decide)⟩

/-- A query for help that is not asked to show a result shows the commands all the same. -/
theorem help_shown_unasked :
    ¬ ∀ (env : Environment) (q : Query),
      (env.evaluate false q).result = (env.evaluate true q).result ∧
      (env.evaluate false q).calls = (env.evaluate true q).calls ∧
      (env.evaluate false q).shown = [] := by
  intro h
  obtain ⟨-, -, hshown⟩ := h isolated ⟨"help", none, [], [], ⟨0, 4⟩⟩
  cases hshown

end Environment

end Almanac
