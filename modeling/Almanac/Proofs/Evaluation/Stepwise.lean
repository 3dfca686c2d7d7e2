import Almanac.Proofs.Evaluation.Failure

/-!
Evaluation step by step. A comparison takes the numbers of its sub-queries one after another, each
evaluated like any other query but without being asked to show its result, and then goes on to
what it compares them with. The evaluation of a query is that: no sub-query is asked for that is
not there, each yields a number if it yields anything, and none of them calls a service or shows
an output.
-/

namespace Almanac

def Action.comparands : Action → List Measure
  | .compareWith _ m => [m]
  | .compareBoth left right => [left, right]
  | _ => []

theorem comparands_withOfQuery {variant : String} {q : Query} {action : Action}
    (h : Action.withOfQuery variant q = .ok action) :
    List.Forall₂ (fun s m => Measure.ofQuery s = .ok m) q.subQueries action.comparands := by
  unfold Action.withOfQuery at h
  obtain ⟨location, _, h⟩ := bind_eq_ok_iff.mp h
  split at h
  · rename_i sub hsub
    obtain ⟨m, hm, rfl⟩ := map_eq_ok_iff.mp h
    rw [hsub]
    exact .cons hm .nil
  · cases h

theorem exists_of_bothOfQuery {q : Query} {action : Action}
    (h : Action.bothOfQuery q = .ok action) :
    ∃ first second left right, q.subQueries = [first, second] ∧
      Measure.ofQuery first = .ok left ∧ Measure.ofQuery second = .ok right ∧
      action = .compareBoth left right := by
  unfold Action.bothOfQuery at h
  split at h
  · rename_i first second hsubs
    simp only [bind_eq_ok_iff] at h
    obtain ⟨left, hleft, right, hright, hdone⟩ := h
    exact ⟨first, second, left, right, hsubs, hleft, hright, (Except.ok.inj hdone).symm⟩
  · cases h

theorem comparands_bothOfQuery {q : Query} {action : Action}
    (h : Action.bothOfQuery q = .ok action) :
    List.Forall₂ (fun s m => Measure.ofQuery s = .ok m) q.subQueries action.comparands := by
  obtain ⟨first, second, left, right, hsubs, hleft, hright, rfl⟩ := exists_of_bothOfQuery h
  rw [hsubs]
  exact .cons hleft (.cons hright .nil)

theorem exists_of_withOfQuery {variant : String} {q : Query} {action : Action}
    (h : Action.withOfQuery variant q = .ok action) :
    ∃ location m, action = .compareWith location m := by
  obtain ⟨location, -, h⟩ := bind_eq_ok_iff.mp h
  split at h
  · obtain ⟨m, -, rfl⟩ := map_eq_ok_iff.mp h
    exact ⟨location, m, rfl⟩
  · cases h

/-- The sub-queries of a comparison ask for what it compares. -/
theorem forall₂_comparands {q : Query} {action : Action} (h : Action.ofQuery q = .ok action)
    (hcompares : action.comparands ≠ []) :
    List.Forall₂ (fun s m => Measure.ofQuery s = .ok m) q.subQueries action.comparands := by
  unfold Action.ofQuery at h
  split at h
  · exact absurd (Except.ok.inj h ▸ rfl) hcompares
  · exact absurd (Except.ok.inj h ▸ rfl) hcompares
  · exact absurd (Except.ok.inj h ▸ rfl) hcompares
  · exact absurd (Except.ok.inj h ▸ rfl) hcompares
  · obtain ⟨row, _, rfl⟩ := map_eq_ok_iff.mp h
    exact absurd rfl hcompares
  · split at h
    · cases h
    · exact comparands_bothOfQuery h
    · exact comparands_withOfQuery h
  · split at h
    · obtain ⟨m, _, rfl⟩ := map_eq_ok_iff.mp h
      exact absurd rfl hcompares
    · cases h

/-- A computation that calls services and shows outputs on its way, and at last has a value or a
diagnostic. -/
structure Course (α : Type) where
  result : Except Diagnostic α
  calls : List ServiceCall
  shown : List Output

namespace Course

variable {α β γ : Type}

def of (result : Except Diagnostic α) : Course α := ⟨result, [], []⟩

def andThen (c : Course α) (next : α → Course β) : Course β :=
  match c.result with
  | .error e => ⟨.error e, c.calls, c.shown⟩
  | .ok value => ⟨(next value).result, c.calls ++ (next value).calls, c.shown ++ (next value).shown⟩

def ofConsultation (c : Consultation α) : Course α :=
  ⟨c.result.mapError Failure.toDiagnostic, c.calls, []⟩

def conclude (print : Bool) (output : Output) (answer : Answer) : Course Answer :=
  ⟨.ok answer, [], if print then [output] else []⟩

theorem andThen_assoc (c : Course α) (f : α → Course β) (g : β → Course γ) :
    (c.andThen f).andThen g = c.andThen fun value => (f value).andThen g := by
  unfold andThen
  cases c.result with
  | error e => rfl
  | ok value => cases hf : (f value).result <;> simp [hf]

theorem ofConsultation_andThen (c : Consultation α) (next : α → Consultation β) :
    ofConsultation (c.andThen next) =
      (ofConsultation c).andThen fun value => ofConsultation (next value) := by
  unfold ofConsultation andThen Consultation.andThen
  cases c.result <;> rfl

theorem ofConsultation_bind (x : Except Failure α) (f : α → Except Failure β) :
    ofConsultation (.of (x >>= f)) =
      (ofConsultation (.of x)).andThen fun value => ofConsultation (.of (f value)) := by
  cases x <;> rfl

end Course

def Evaluation.course (e : Evaluation) : Course Answer :=
  ⟨e.result.mapError Failure.toDiagnostic, e.calls, e.shown⟩

def Query.yieldsNoNumber (q : Query) : Diagnostic :=
  .error .internalError ("Sub-query " ++ q.command ++ " did not produce a number.") q.span

def Query.numberBy (evaluate : Query → Course Answer) (s : Query) : Course Float :=
  (evaluate s).andThen fun
    | .scalar x => .of (.ok x)
    | _ => .of (.error s.yieldsNoNumber)

namespace Environment

open Course

variable {env : Environment} {q : Query}

def compareNumber (env : Environment) (print : Bool) (span : Span) (location : Location)
    (m : Measure) (x : Float) : Course Answer :=
  (ofConsultation (env.locate span location)).andThen fun place =>
    (ofConsultation (.of ((env.dataset.archiveDays m).mapError fun e => .dataset e span))).andThen
      fun days =>
        (ofConsultation (env.archive span ⟨place, m.kind, m.row, days.1, days.2⟩)).andThen
          fun archived =>
            let sentence := Sentence.withArchive m.kind m.row x place archived
            conclude print (.text sentence) (.text sentence)

/-- The evaluation of a query in terms of that of its sub-queries, which are asked for by their
positions. There is none when one of them is missing. -/
def evaluateBy? (env : Environment) (evaluate : Query → Course Answer) (print : Bool)
    (q : Query) : Option (Course Answer) :=
  match Action.ofQuery q with
  | .error lack => some (.of (.error lack.toDiagnostic))
  | .ok (.compareWith location m) => do
    let sub ← q.subQueries[0]?
    pure ((sub.numberBy evaluate).andThen fun x => env.compareNumber print q.span location m x)
  | .ok (.compareBoth left right) => do
    let first ← q.subQueries[0]?
    let second ← q.subQueries[1]?
    pure ((first.numberBy evaluate).andThen fun x => (second.numberBy evaluate).andThen fun y =>
      let sentence := Sentence.ofBoth left.kind left.row x right.kind right.row y
      conclude print (.text sentence) (.text sentence))
  | .ok action => some (env.perform print q.span action).course

theorem course_settle {α : Type} (print : Bool) (c : Consultation α) (answer : α → Answer)
    (output : α → Output) :
    (settle print c answer output).course =
      (ofConsultation c).andThen fun value => conclude print (output value) (answer value) := by
  unfold settle Evaluation.course ofConsultation Course.andThen conclude
  cases c.result with
  | error e => rfl
  | ok value => simp [Except.mapError]

theorem course_evaluate_of_measure {m : Measure} (h : Measure.ofQuery q = .ok m) (print : Bool) :
    (env.evaluate print q).course = (ofConsultation (.of (env.measure m))).andThen fun x =>
      conclude print (.ofScalar m.row x) (.scalar x) := by
  rw [evaluate_of_action (Action.ofQuery_of_measure h)]
  exact course_settle print _ _ _

/-- The number of a sub-query is what it measures. -/
theorem numberBy_of_measure {m : Measure} (h : Measure.ofQuery q = .ok m) :
    q.numberBy (fun s => (env.evaluate false s).course) =
      ofConsultation (.of (env.measure m)) := by
  unfold Query.numberBy
  simp only [course_evaluate_of_measure h]
  cases env.measure m <;> rfl

theorem silent_of_measure {m : Measure} (h : Measure.ofQuery q = .ok m) :
    (env.evaluate false q).calls = [] ∧ (env.evaluate false q).shown = [] := by
  rw [evaluate_of_action (Action.ofQuery_of_measure h)]
  unfold perform settle Consultation.of
  cases hm : env.measure m <;> simp [hm]

/-- An evaluation is its own evaluation step by step. -/
theorem evaluateBy?_evaluate (env : Environment) (print : Bool) (q : Query) :
    env.evaluateBy? (fun s => (env.evaluate false s).course) print q =
      some (env.evaluate print q).course := by
  unfold evaluateBy?
  cases haction : Action.ofQuery q with
  | error lack =>
    unfold evaluate
    rw [haction]
    rfl
  | ok action =>
    rw [evaluate_of_action haction]
    cases action with
    | compareWith location m =>
      have hsubs := forall₂_comparands haction (List.cons_ne_nil _ _)
      obtain ⟨sub, rest, hm, hrest, hsub⟩ := List.forall₂_cons_right_iff.mp hsubs
      simp only [hsub, List.getElem?_cons_zero, Option.bind_eq_bind, Option.bind_some,
        numberBy_of_measure hm]
      unfold perform compareNumber
      simp only [course_settle, Environment.compareWith, ofConsultation_andThen, andThen_assoc]
      rfl
    | compareBoth left right =>
      have hsubs := forall₂_comparands haction (List.cons_ne_nil _ _)
      obtain ⟨first, rest, hleft, hrest, hsub⟩ := List.forall₂_cons_right_iff.mp hsubs
      obtain ⟨second, none, hright, _, rfl⟩ := List.forall₂_cons_right_iff.mp hrest
      simp only [hsub, List.getElem?_cons_zero, List.getElem?_cons_succ, Option.bind_eq_bind,
        Option.bind_some, numberBy_of_measure hleft, numberBy_of_measure hright]
      unfold perform
      simp only [course_settle, Environment.compareBoth, ofConsultation_bind, andThen_assoc]
      rfl
    | help => rfl
    | upload => rfl
    | clear => rfl
    | table => rfl
    | measure m => rfl
    | chart row first last => rfl

end Environment

end Almanac
