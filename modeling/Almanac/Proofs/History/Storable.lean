import Almanac.Proofs.Evaluation.Extent
import Almanac.Proofs.History.Encoding

/-!
Whatever a line shows can be kept in a history file. Diagnostics point into the line, a weather
code is a signed word and the bars of a histogram are finite. What is left to assume is that the
texts of the bars stand for their numbers.
-/

namespace Almanac

/-- The numbers of an output, as far as JSON has them, are the ones that their texts stand for. -/
def Output.NumbersReadBack : Output → Prop
  | .histogram _ _ bars => ∀ bar ∈ bars, bar.value.isFinite = true → Json.ReadsBack bar.value
  | _ => True

/-! Diagnostics -/

/-- The details of a problem stand in the order of their keys. -/
theorem Problem.ordered_details {problem : Problem} {nested : Bool}
    {entries : List (String × String)} (h : entries ∈ problem.details nested) :
    Keyed.Ordered (entries.map Prod.fst) := by
  have hunresolved : Keyed.Ordered ["command", "nested"] := by decide
  cases problem with
  | emptyQuery => cases h
  | unknownCommand | notSubQuery | unknownVariant | missingVariant =>
    obtain rfl := Option.some.inj h
    exact hunresolved
  | tooFewArguments =>
    obtain rfl := Option.some.inj h
    exact (by decide : Keyed.Ordered ["command", "expected", "missing", "received"])
  | tooManyArguments =>
    obtain rfl := Option.some.inj h
    exact (by decide : Keyed.Ordered ["command", "expected", "received"])
  | missingSubQuery =>
    obtain rfl := Option.some.inj h
    exact (by decide : Keyed.Ordered ["command", "expected", "param"])
  | badArgument =>
    obtain rfl := Option.some.inj h
    exact (by decide : Keyed.Ordered ["command", "expected", "nested", "param", "value"])

theorem Failure.storable_toDiagnostic {n : Nat} {failure : Failure} (h : failure.span.Within n)
    (hn : n < Json.wordLimit) : failure.toDiagnostic.Storable := by
  have hspan : ∀ s ∈ failure.toDiagnostic.span, s.Storable := by
    intro s hs
    have hplace : failure.toDiagnostic.span = some failure.span := by
      cases failure <;> rfl
    rw [hplace] at hs
    obtain rfl := Option.some.inj hs
    exact h.storable hn
  refine ⟨hspan, ?_⟩
  cases failure with
  | invalid fault => exact fun entries hentries => Problem.ordered_details hentries
  | _ => exact nofun

/-! Numbers -/

/-- What is before the decimal point is kept within the signed words. -/
theorem Decimal.wholePart_bounds (x : Float) :
    -(Json.wordLimit : Int) ≤ 2 * wholePart x ∧ 2 * wholePart x < Json.wordLimit := by
  have hlimit : Json.wordLimit = 2 * twoTo 63 := by decide
  have hpos : 0 < twoTo 63 := by decide
  unfold wholePart
  dsimp only
  generalize twoTo 63 = bound at hlimit hpos ⊢
  generalize (Binary.ofFloat x).mantissa * twoTo (Binary.ofFloat x).exponent.toNat /
    twoTo (-(Binary.ofFloat x).exponent).toNat = size
  split
  · omega
  · split <;> split <;> omega

namespace Environment

variable {env : Environment} {line : String}

/-- What is settled comes of a consultation that gave something. -/
theorem exists_of_settle {α : Type} {print : Bool} {c : Consultation α} {answer : α → Answer}
    {output : α → Output} {found : Answer}
    (h : (settle print c answer output).result = .ok found) :
    ∃ value, c.result = .ok value ∧ answer value = found := by
  rcases settle_cases print c answer output with ⟨value, hvalue, hdone⟩ | ⟨_, _, hdone⟩
  · rw [hdone] at h
    exact ⟨value, hvalue, Except.ok.inj h⟩
  · rw [hdone] at h
    cases h

/-- Bars are those of the dataset, which are read as finite numbers. -/
theorem isFinite_of_bars {print : Bool} {span : Span} {action : Action} {bars : List Bar}
    (h : (env.perform print span action).result = .ok (.bars bars)) :
    ∀ bar ∈ bars, bar.value.isFinite = true := by
  cases action with
  | help => cases h
  | upload => cases h
  | clear => cases h
  | table =>
    obtain ⟨_, _, hanswer⟩ := exists_of_settle h
    cases hanswer
  | measure m =>
    obtain ⟨_, _, hanswer⟩ := exists_of_settle h
    cases hanswer
  | chart row first last =>
    obtain ⟨found, hfound, hanswer⟩ := exists_of_settle h
    obtain rfl := Answer.bars.inj hanswer
    obtain ⟨days, hdays, hbars⟩ := map_eq_ok_iff.mp (mapError_eq_ok_iff.mp hfound)
    subst hbars
    intro bar hbar
    obtain ⟨day, hday, rfl⟩ := List.mem_map.mp hbar
    exact Dataset.isFinite_of_histogram hdays day hday
  | compareWith location m =>
    obtain ⟨_, _, hanswer⟩ := exists_of_settle h
    cases hanswer
  | compareBoth left right =>
    obtain ⟨_, _, hanswer⟩ := exists_of_settle h
    cases hanswer

theorem evaluate_of_answer {q : Query} {answer : Answer}
    (hq : Query.parse env.table env.dataset.length false line = .ok q)
    (h : (env.submit line).answer = some answer) : (env.evaluate true q).result = .ok answer := by
  simp only [submit, execute, hq] at h
  cases hresult : (env.evaluate true q).result with
  | error failure => simp [hresult] at h
  | ok found => simpa [hresult] using h

/-- A diagnostic that is shown tells of a failure in the line. -/
theorem failure_of_mem_shown {echoed : String} {diagnostic : Diagnostic}
    (h : .error echoed diagnostic ∈ (env.submit line).shown) :
    ∃ failure : Failure, diagnostic = failure.toDiagnostic ∧
      failure.span.Within (Text.byteLength line) := by
  have hread := Query.within_parse env.table env.dataset.length false line
  unfold submit execute at h
  cases hq : Query.parse env.table env.dataset.length false line with
  | error fault =>
    obtain ⟨-, rfl⟩ : line = echoed ∧ fault.toDiagnostic = diagnostic := by
      simpa [hq, eq_comm] using h
    exact ⟨.invalid fault, rfl, hread.of_eq_error hq⟩
  | ok q =>
    have hwithin : FailsWithin _ (env.evaluate true q).result :=
      within_evaluate (hread.of_eq_ok hq) true
    rcases env.evaluate_cases q with
      ⟨action, answer, output, haction, hresult, hshown, hdisplays⟩ | ⟨failure, hresult, hshown⟩
    · have houtput : .error echoed diagnostic = output := by
        simpa [hq, hresult, hshown] using h
      have hnone := hdisplays.isError_eq
      rw [← houtput] at hnone
      cases hnone
    · obtain ⟨-, rfl⟩ : line = echoed ∧ failure.toDiagnostic = diagnostic := by
        simpa [hq, hresult, hshown, eq_comm] using h
      exact ⟨failure, rfl, hwithin.of_eq_error hresult⟩

/-- No number is shown for a line that fails. -/
theorem numbersReadBack_of_answer (h : (env.submit line).answer = none) :
    ∀ output ∈ (env.submit line).shown, output.NumbersReadBack := by
  rcases env.submit_cases line with ⟨_, _, _, _, _, _, _, hanswer, _⟩ | ⟨_, -, hshown⟩
  · rw [h] at hanswer
    cases hanswer
  · rw [hshown]
    exact List.forall_mem_cons.mpr ⟨trivial, List.forall_mem_singleton.mpr trivial⟩

/-- All that is shown for a line can be kept, when positions in the line fit into a word and the
texts of the numbers shown stand for them. -/
theorem storable_of_submit (hline : Text.byteLength line < Json.wordLimit)
    (hnumbers : ∀ output ∈ (env.submit line).shown, output.NumbersReadBack) :
    ∀ output ∈ (env.submit line).shown, output.Storable := by
  rcases env.submit_cases line with
    ⟨q, hq, action, answer, output, haction, hdisplays, hanswer, hshown⟩ |
      ⟨diagnostic, -, hshown⟩
  · rw [hshown] at hnumbers ⊢
    refine List.forall_mem_cons.mpr ⟨trivial, List.forall_mem_singleton.mpr ?_⟩
    have hoften : output.NumbersReadBack := hnumbers output (by simp)
    have hresult := evaluate_of_answer hq hanswer
    rw [evaluate_of_action haction] at hresult
    cases hdisplays with
    | weatherCode _ => exact Decimal.wholePart_bounds _
    | chart => exact fun bar hbar => hoften bar hbar (isFinite_of_bars hresult bar hbar)
    | _ => trivial
  · have hmem : .error line diagnostic ∈ (env.submit line).shown := by simp [hshown]
    obtain ⟨failure, rfl, hwithin⟩ := failure_of_mem_shown hmem
    rw [hshown]
    exact List.forall_mem_cons.mpr ⟨trivial, List.forall_mem_singleton.mpr
      (Failure.storable_toDiagnostic hwithin hline)⟩

end Environment

end Almanac
