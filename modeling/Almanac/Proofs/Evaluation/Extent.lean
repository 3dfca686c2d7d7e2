import Almanac.Proofs.Evaluation.Failure
import Almanac.Proofs.Evaluation.Rendering
import Almanac.Proofs.Query.Extent

/-!
What is shown for a line. Diagnostics point into the line.
-/

namespace Almanac

def Failure.span : Failure → Span
  | invalid fault => fault.span
  | unresolved query => query.span
  | dataset _ span => span
  | unlocated _ _ span => span
  | unarchived _ span => span

section

variable {n : Nat} {q : Query}

def Action.Within (n : Nat) : Action → Prop
  | .measure m => m.span.Within n
  | .compareWith _ m => m.span.Within n
  | .compareBoth left right => left.span.Within n ∧ right.span.Within n
  | _ => True

theorem within_need {α : Type} (hq : q.span.Within n) (name : String) (value : Option α) :
    Yields (fun lack => lack.span.Within n) (fun _ => True) (q.need name value) := by
  cases value with
  | none => exact hq
  | some found => trivial

theorem within_measureOfQuery (hq : q.span.Within n) :
    Yields (fun lack => lack.span.Within n) (fun m => m.span.Within n) (Measure.ofQuery q) := by
  have hrow := within_need hq "row" (q.row? "row")
  unfold Measure.ofQuery
  split
  · exact hq
  · cases hread : q.need "row" (q.row? "row") with
    | error lack => exact hrow.of_eq_error hread
    | ok row =>
      dsimp only
      split
      · exact hq
      · exact hq

theorem within_locationOfQuery (hq : q.span.Within n) (variant : String) :
    Yields (fun lack => lack.span.Within n) (fun _ => True) (Location.ofQuery variant q) := by
  unfold Location.ofQuery
  split
  · exact (within_need hq _ _).bind fun _ _ => (within_need hq _ _).bind fun _ _ => trivial
  · exact (within_need hq _ _).map fun _ _ => trivial
  · exact (within_need hq _ _).map fun _ _ => trivial
  · exact hq

/-- What a query asks for stands where the query and its parts stand. -/
theorem within_actionOfQuery (h : q.AllWithin n) :
    Yields (fun lack => lack.span.Within n) (Action.Within n) (Action.ofQuery q) := by
  have hq : q.span.Within n := h q (Query.mem_nodes_iff.mpr (.inl rfl))
  have hsubs : ∀ s ∈ q.subQueries, s.span.Within n := fun s hs =>
    h s (Query.mem_nodes_iff.mpr (.inr ⟨s, hs, Query.mem_nodes_iff.mpr (.inl rfl)⟩))
  unfold Action.ofQuery
  split
  · trivial
  · trivial
  · trivial
  · trivial
  · exact (within_need hq _ _).map fun _ _ => trivial
  · split
    · exact hq
    · unfold Action.bothOfQuery
      split
      · rename_i left right hboth
        have hleft := within_measureOfQuery (hsubs left (by simp [hboth]))
        have hright := within_measureOfQuery (hsubs right (by simp [hboth]))
        exact hleft.bind fun _ h₁ => hright.bind fun _ h₂ => ⟨h₁, h₂⟩
      · exact hq
    · refine (within_locationOfQuery hq _).bind fun location _ => ?_
      split
      · rename_i sub hsub
        exact (within_measureOfQuery (hsubs sub (by simp [hsub]))).map fun _ hm => hm
      · exact hq
  · split
    · exact (within_measureOfQuery hq).map fun _ hm => hm
    · exact hq

end

namespace Environment

variable {env : Environment} {n : Nat} {span : Span}

/-- A computation that fails, if it does, at a place within so many bytes. -/
abbrev FailsWithin (n : Nat) {α : Type} (x : Except Failure α) : Prop :=
  Yields (fun failure => failure.span.Within n) (fun _ => True) x

theorem within_mapError {α ε : Type} {x : Except ε α} {f : ε → Failure}
    (h : ∀ e, (f e).span.Within n) : FailsWithin n (x.mapError f) := by
  cases x with
  | error e => exact h e
  | ok a => trivial

theorem within_measure {m : Measure} (hm : m.span.Within n) : FailsWithin n (env.measure m) :=
  within_mapError fun _ => hm

theorem within_settle {α : Type} {print : Bool} {c : Consultation α} {answer : α → Answer}
    {output : α → Output} (h : FailsWithin n c.result) :
    FailsWithin n (settle print c answer output).result := by
  unfold settle
  cases hresult : c.result with
  | error failure => exact h.of_eq_error hresult
  | ok value => trivial

theorem within_andThen {α β : Type} {c : Consultation α} {next : α → Consultation β}
    (h : FailsWithin n c.result) (hnext : ∀ value, FailsWithin n (next value).result) :
    FailsWithin n (c.andThen next).result := by
  unfold Consultation.andThen
  cases hresult : c.result with
  | error failure => exact h.of_eq_error hresult
  | ok value => exact hnext value

/-- An action fails where its query or one of the parts stands. -/
theorem within_perform (hspan : span.Within n) {action : Action} (h : action.Within n)
    (print : Bool) : FailsWithin n (env.perform print span action).result := by
  cases action with
  | help => trivial
  | upload => trivial
  | clear => trivial
  | table => exact within_settle trivial
  | measure m => exact within_settle (within_measure h)
  | chart row first last => exact within_settle (within_mapError fun _ => hspan)
  | compareWith location m =>
    refine within_settle (within_andThen (within_measure h) fun value => ?_)
    refine within_andThen ?_ fun place =>
      within_andThen (within_mapError fun _ => hspan) fun days =>
        within_andThen (within_mapError fun _ => hspan) fun archived => trivial
    cases location with
    | point place => trivial
    | zip code => exact within_mapError fun _ => hspan
    | city name => exact within_mapError fun _ => hspan
  | compareBoth left right =>
    exact within_settle ((within_measure h.1).bind fun _ _ =>
      (within_measure h.2).bind fun _ _ => trivial)

theorem within_evaluate {q : Query} (h : q.AllWithin n) (print : Bool) :
    FailsWithin n (env.evaluate print q).result := by
  have hq : q.span.Within n := h q (Query.mem_nodes_iff.mpr (.inl rfl))
  have haction := within_actionOfQuery h
  unfold evaluate
  cases hread : Action.ofQuery q with
  | error lack => exact haction.of_eq_error hread
  | ok action => exact within_perform hq (haction.of_eq_ok hread) print

end Environment

end Almanac
