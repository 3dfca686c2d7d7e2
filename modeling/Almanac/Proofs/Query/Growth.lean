import Almanac.Proofs.Query.Parsing
import Almanac.Table.Builtin

/-!
Lines and the number of days. The only part of reading a line that asks for the number of days is
the check of a date index, and an index that is in range stays in range when days are added.
-/

namespace Almanac

def Fault.OutOfRange (fault : Fault) : Prop :=
  fault.toDiagnostic.id = Diagnostic.Code.dateIndexOutOfRange.id

variable {table : CommandTable} {n m lineLength : Nat} {nested : Bool}

namespace Argument

theorem inBounds_of_le (h : n ≤ m) {place : Int} (hplace : inBounds n place = true) :
    inBounds m place = true := by
  simp only [inBounds, Bool.and_eq_true, decide_eq_true_eq] at hplace ⊢
  omega

/-- More days change how a date is read only where it was out of range. -/
theorem readDate_of_le (h : n ≤ m) (text : String) :
    readDate m text = readDate n text ∨ readDate n text = .error (.dateIndexOutOfRange n) := by
  unfold readDate
  cases Decimal.readInteger? text.toList with
  | none => exact .inl rfl
  | some place =>
    by_cases hplace : inBounds n place = true
    · exact .inl (by simp only [hplace, inBounds_of_le h hplace, if_true])
    · simp only [hplace]
      split
      · exact .inr rfl
      · exact .inr rfl
      · exact .inl rfl
      · exact .inl rfl

theorem readValue_of_le (h : n ≤ m) (text : String) (kind : ParamKind) :
    readValue m text kind = readValue n text kind ∨
      readValue n text kind = .error (.dateIndexOutOfRange n) := by
  cases kind with
  | date =>
    simp only [readValue]
    rcases readDate_of_le h text with hsame | hrange
    · exact .inl (by rw [hsame])
    · exact .inr (by rw [hrange]; rfl)
  | _ => exact .inl rfl

theorem bind_agrees (h : n ≤ m) (command : String) (param : Param) (token : Token) :
    Agrees Fault.OutOfRange Eq Eq (bind n command nested param token)
      (bind m command nested param token) := by
  unfold bind
  rcases readValue_of_le h token.text param.kind with hsame | hrange
  · rw [hsame]
    exact .refl (fun _ => rfl) _
  · rw [hrange]
    exact .excused rfl

theorem bindAll_agrees (h : n ≤ m) (command : String) (params : List Param)
    (tokens : List Token) :
    Agrees Fault.OutOfRange Eq Eq (bindAll n command nested params tokens)
      (bindAll m command nested params tokens) := by
  rw [bindAll_eq_mapM, bindAll_eq_mapM]
  have hbound : ∀ bound ∈ params.zip tokens,
      Agrees Fault.OutOfRange Eq Eq (bind n command nested bound.1 bound.2)
        (bind m command nested bound.1 bound.2) :=
    fun bound _ => bind_agrees h command bound.1 bound.2
  have hall := Agrees.mapM (List.forall₂_same.mpr hbound)
  rwa [List.forall₂_eq_eq_eq] at hall

end Argument

namespace Query

theorem ofTokens_agrees (h : n ≤ m) (tokens : List Token) :
    Agrees Fault.OutOfRange Eq Eq (ofTokens table n lineLength nested tokens)
      (ofTokens table m lineLength nested tokens) := by
  induction nested, tokens using tokens_induct table with
  | nil nested => simp only [ofTokens]; exact .error rfl
  | cons nested head tail ih =>
    rw [ofTokens_cons, ofTokens_cons]
    cases table.resolve head.text (tail.head?.map Token.text) nested with
    | none => exact .error rfl
    | some c =>
      simp only
      split
      · exact .error rfl
      · have hsubs := Agrees.mapM (List.forall₂_same.mpr (ih c (runSpan head tail).stop))
        rw [List.forall₂_eq_eq_eq] at hsubs
        refine hsubs.bind fun subQueries _ hsame => ?_
        subst hsame
        refine (Agrees.refl (fun _ => rfl) _).bind fun _ _ _ => ?_
        refine (Argument.bindAll_agrees h ..).bind fun args _ hargs => ?_
        subst hargs
        exact .ok rfl

/-- With more days a line is read as before, unless a date index was out of range. -/
theorem parse_eq_or_outOfRange (h : n ≤ m) (line : String) :
    parse table n nested line = parse table m nested line ∨
      ∃ fault, parse table n nested line = .error fault ∧ fault.OutOfRange :=
  (ofTokens_agrees h (tokenize line)).eq_or_excused

/-- A query stays the same query when the dataset grows, and a line that is wrong in any way other
than by a date index out of range stays wrong in that way. So the number of days decides nothing
but which indexes are in range. -/
theorem parse_of_days_le (h : n ≤ m) (line : String) :
    (∀ q, parse table n nested line = .ok q → parse table m nested line = .ok q) ∧
      (∀ fault, parse table n nested line = .error fault →
        fault.toDiagnostic.id ≠ Diagnostic.Code.dateIndexOutOfRange.id →
          parse table m nested line = .error fault) := by
  have hread : parse table n nested line = parse table m nested line ∨ _ :=
    parse_eq_or_outOfRange h line
  rcases hread with hsame | ⟨fault, hfault, hrange⟩
  · rw [hsame]
    exact ⟨fun _ hq => hq, fun _ hfault _ => hfault⟩
  · rw [hfault]
    refine ⟨nofun, fun other hother hid => ?_⟩
    obtain rfl := Except.error.inj hother
    exact absurd hrange hid

theorem parse_min_line_of_growth : 1 ≤ 3 ∧ ∃ q fault,
    parse CommandTable.builtin 1 false "min `t` 0" = .ok q ∧
      parse CommandTable.builtin 3 false "min `t` 0" = .ok q ∧
      parse CommandTable.builtin 1 false "min `t` x" = .error fault ∧
      parse CommandTable.builtin 3 false "min `t` x" = .error fault := by
  have hzero : tokenize "min `t` 0" = [⟨"min", 0⟩, ⟨"`t`", 4⟩, ⟨"0", 8⟩] := by decide +kernel
  have hword : tokenize "min `t` x" = [⟨"min", 0⟩, ⟨"`t`", 4⟩, ⟨"x", 8⟩] := by decide +kernel
  obtain ⟨q, hq⟩ : ∃ q, parse CommandTable.builtin 1 false "min `t` 0" = .ok q := by
    rw [parse, hzero, ofTokens_cons]
    exact ⟨_, rfl⟩
  obtain ⟨fault, hfault, hid⟩ : ∃ fault,
      parse CommandTable.builtin 1 false "min `t` x" = .error fault ∧
        fault.toDiagnostic.id ≠ Diagnostic.Code.dateIndexOutOfRange.id := by
    rw [parse, hword, ofTokens_cons]
    exact ⟨_, rfl, by decide⟩
  have hle : 1 ≤ 3 := by decide
  exact ⟨hle, q, fault, hq, (parse_of_days_le hle _).1 q hq, hfault,
    (parse_of_days_le hle _).2 fault hfault hid⟩

end Query
end Almanac
