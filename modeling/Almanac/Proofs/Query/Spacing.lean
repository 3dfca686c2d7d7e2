import Almanac.Proofs.Query.Cutting
import Almanac.Proofs.Query.Parsing

/-!
The blanks of a line do not matter, only the texts of its tokens do. Every token but the last one
ends with its quoted run closed, so the texts of the tokens with single blanks between them make a
line that has the same tokens again. Reading looks at these texts alone: where the tokens stand
shows only in the places that are told.
-/

namespace Almanac

namespace Token

/-- The texts of tokens are the texts of the tokens of what they make with single blanks. -/
theorem map_text_scan_join {ps : List (List Char)} (hps : ∀ p ∈ ps, ' ' ∉ p) (start : Nat) :
    (scan (Text.join ' ' ((ofPieces none start ps).map (·.text.toList)))).map text =
      (ofPieces none start ps).map text := by
  induction htokens : ofPieces none start ps generalizing start ps with
  | nil => simp [Text.join, scan, Text.pieces, ofPieces]
  | cons t ts ih =>
    obtain ⟨gap, block, after, hb, -, hafter⟩ := exists_firstBlock htokens
    rw [hb.split] at hps
    have hblock : ∀ p ∈ block, ' ' ∉ p := fun p hp => hps p (by simp [hp])
    have hlater : ∀ p ∈ after, ' ' ∉ p := fun p hp => hps p (by simp [hp])
    have htext : t.text.toList = Text.join ' ' block := by
      rw [hb.eq, String.toList_ofList]
    have halone : (ofPieces none 0 block).map text = [t.text] := by
      rw [← map_text_ofPieces t.start, hb.alone]
      rfl
    cases ts with
    | nil =>
      rw [List.map_singleton, Text.join, htext, scan, Text.pieces_join hb.ne_nil hblock, halone]
      rfl
    | cons u us =>
      -- More tokens follow, so the run of this one is closed.
      have hclosed : openAfter false block = false := by
        refine hb.closed.resolve_right fun hnone => ?_
        rw [hnone] at hafter
        cases hafter
      have hjoin : Text.join ' ' ((t :: u :: us).map (·.text.toList)) =
          Text.ended ' ' block ++ Text.join ' ' ((u :: us).map (·.text.toList)) := by
        rw [← Text.join_append_mark ' ' hb.ne_nil, ← htext, List.append_assoc]
        rfl
      rw [hjoin, map_text_scan_append ⟨block, hblock, rfl, hclosed⟩, scan_ended hblock hclosed,
        halone, ih hlater _ hafter]
      rfl

end Token

/-! Reading without places -/

/-- The line with one blank between any two of its tokens and none around them. -/
def respaced (line : String) : String := " ".intercalate ((tokenize line).map Token.text)

theorem map_text_tokenize_respaced (line : String) :
    (tokenize (respaced line)).map Token.text = (tokenize line).map Token.text := by
  have htexts := Token.map_text_scan_join
    (fun p (hp : p ∈ Text.pieces (· = ' ') line.toList) => Token.not_mem_of_mem_pieces hp) 0
  rw [← Token.scan] at htexts
  have htoList : (respaced line).toList = Text.join ' ' ((tokenize line).map (·.text.toList)) := by
    have hblank : " ".toList = [' '] := by decide
    rw [respaced, String.toList_intercalate, hblank, Text.intercalate_eq_join, List.map_map]
    rfl
  rw [tokenize, htoList]
  exact htexts

def Token.unplaced (t : Token) : Token := ⟨t.text, 0⟩

def Argument.unplaced (a : Argument) : Argument := { a with span := .empty 0 }

def Fault.unplaced (f : Fault) : Fault := { f with span := .empty 0 }

namespace Query

mutual

/-- The same query without the places of its parts. -/
def unplaced : Query → Query
  | ⟨command, variant, args, subQueries, _⟩ =>
    ⟨command, variant, args.map Argument.unplaced, unplacedAll subQueries, .empty 0⟩

def unplacedAll : List Query → List Query
  | [] => []
  | q :: rest => unplaced q :: unplacedAll rest

end

theorem unplacedAll_eq (qs : List Query) : unplacedAll qs = qs.map unplaced := by
  induction qs with
  | nil => rfl
  | cons q rest ih => rw [unplacedAll, ih, List.map_cons]

theorem unplaced_mk (command : String) (variant : Option String) (args : List Argument)
    (subQueries : List Query) (span : Span) :
    unplaced ⟨command, variant, args, subQueries, span⟩ =
      ⟨command, variant, args.map Argument.unplaced, subQueries.map unplaced, .empty 0⟩ := by
  rw [unplaced, unplacedAll_eq]

end Query

/-- Both computations give the same but for places, or both fail with the same but for places. -/
abbrev AgreeUnplaced {α : Type} (unplaced : α → α) : Except Fault α → Except Fault α → Prop :=
  Agrees (fun _ => False) (fun f g => f.unplaced = g.unplaced) fun a b => unplaced a = unplaced b

theorem AgreeUnplaced.mapM {α β γ : Type} {unplaced : γ → γ} {f : α → Except Fault γ}
    {g : β → Except Fault γ} {place : α → β} {xs : List α}
    (h : ∀ x ∈ xs, AgreeUnplaced unplaced (f x) (g (place x))) :
    AgreeUnplaced (List.map unplaced) (xs.mapM f) ((xs.map place).mapM g) := by
  refine (Agrees.mapM (List.forall₂_map_right_iff.mpr (List.forall₂_same.mpr h))).imp ?_
  intro as bs hall
  rwa [← List.forall₂_eq_eq_eq, List.forall₂_map_left_iff, List.forall₂_map_right_iff]

theorem agreeUnplaced_of_fault {fault other : Option Fault}
    (h : fault.map Fault.unplaced = other.map Fault.unplaced) :
    AgreeUnplaced (fun done => done) (fault.elim (.ok ()) .error)
      (other.elim (.ok ()) .error) := by
  cases fault <;> cases other
  · exact .ok rfl
  · cases h
  · cases h
  · exact .error (Option.some.inj h)

theorem AgreeUnplaced.cases {α : Type} {unplaced : α → α} {x y : Except Fault α}
    (h : AgreeUnplaced unplaced x y) :
    (∃ a b, x = .ok a ∧ y = .ok b ∧ unplaced a = unplaced b) ∨
      ∃ f g, x = .error f ∧ y = .error g ∧ f.unplaced = g.unplaced := by
  cases h with
  | ok h => exact .inl ⟨_, _, rfl, rfl, h⟩
  | error h => exact .inr ⟨_, _, rfl, rfl, h⟩
  | excused h => cases h

/-- What agrees with the same agrees. -/
theorem AgreeUnplaced.of_common {α : Type} {unplaced : α → α} {x y z : Except Fault α}
    (hx : AgreeUnplaced unplaced x z) (hy : AgreeUnplaced unplaced y z) :
    AgreeUnplaced unplaced x y := by
  rcases hx.cases with ⟨a, c, rfl, rfl, ha⟩ | ⟨f, h, rfl, rfl, hf⟩
  · rcases hy.cases with ⟨b, _, rfl, hc, hb⟩ | ⟨_, _, _, hc, _⟩
    · obtain rfl := Except.ok.inj hc
      exact .ok (ha.trans hb.symm)
    · cases hc
  · rcases hy.cases with ⟨_, _, _, hc, _⟩ | ⟨g, _, rfl, hc, hg⟩
    · cases hc
    · obtain rfl := Except.error.inj hc
      exact .error (hf.trans hg.symm)

variable {table : CommandTable} {days lineLength otherLength : Nat} {nested : Bool}

namespace Argument

theorem bind_unplaced (command : String) (param : Param) (token : Token) :
    AgreeUnplaced unplaced (bind days command nested param token)
      (bind days command nested param token.unplaced) := by
  have htext : token.unplaced.text = token.text := rfl
  unfold bind
  rw [htext]
  cases readValue days token.text param.kind with
  | ok value => exact .ok rfl
  | error problem => exact .error rfl

theorem bindAll_unplaced (command : String) (params : List Param) (tokens : List Token) :
    AgreeUnplaced (List.map unplaced) (bindAll days command nested params tokens)
      (bindAll days command nested params (tokens.map Token.unplaced)) := by
  rw [bindAll_eq_mapM, bindAll_eq_mapM, List.zip_map_right]
  exact .mapM fun bound _ => bind_unplaced command bound.1 bound.2

end Argument

namespace Query

theorem unresolved_unplaced (head : Token) (next : Option Token) :
    (unresolved table nested head.unplaced (next.map Token.unplaced)).unplaced =
      (unresolved table nested head next).unplaced := by
  have hhead : head.unplaced.text = head.text := rfl
  unfold unresolved
  rw [hhead]
  cases table.visibleOverloads head.text nested with
  | nil =>
    by_cases hnone : (table.overloads head.text).isEmpty = true <;>
      simp only [hnone, if_true, if_false, Bool.false_eq_true] <;> rfl
  | cons c more => cases next <;> rfl

theorem divide_unplaced (c : Command) (stop stop' : Nat) (tail : List Token) :
    (divide table c nested stop' (tail.map Token.unplaced)).runs =
        (divide table c nested stop tail).runs.map (List.map Token.unplaced) ∧
      (divide table c nested stop' (tail.map Token.unplaced)).fault.map Fault.unplaced =
        (divide table c nested stop tail).fault.map Fault.unplaced := by
  have htext : ∀ t : Token, t.unplaced.text = t.text := fun _ => rfl
  simp only [divide, divideInTwo, secondStart?, ← List.map_drop, lastIndex?_map, htext,
    List.length_map, List.isEmpty_map]
  split
  · split <;> simp [Fault.unplaced, tooMany]
  · split <;> simp [Fault.unplaced, missing]
  · split
    · split <;> simp [Fault.unplaced, missing]
    · simp [Fault.unplaced, missing]
    · simp [List.map_take, List.map_drop]

theorem ofTokens_unplaced (tokens : List Token) :
    AgreeUnplaced unplaced (ofTokens table days lineLength nested tokens)
      (ofTokens table days otherLength nested (tokens.map Token.unplaced)) := by
  induction nested, tokens using tokens_induct table with
  | nil nested => simp only [ofTokens, List.map_nil]; exact .error rfl
  | cons nested head tail ih =>
    have hnext : (tail.map Token.unplaced).head?.map Token.text = tail.head?.map Token.text := by
      cases tail <;> rfl
    rw [List.map_cons, ofTokens_cons, ofTokens_cons, hnext, List.length_map, List.head?_map]
    have hhead : head.unplaced.text = head.text := rfl
    rw [hhead]
    cases table.resolve head.text (tail.head?.map Token.text) nested with
    | none => exact .error (unresolved_unplaced head tail.head?).symm
    | some c =>
      simp only
      split
      · exact .error rfl
      · obtain ⟨hruns, hfault⟩ := @divide_unplaced table nested c (runSpan head tail).stop
          (runSpan head.unplaced (tail.map Token.unplaced)).stop tail
        rw [hruns]
        refine (AgreeUnplaced.mapM (ih c _)).bind fun subQueries others hsame => ?_
        refine (agreeUnplaced_of_fault hfault.symm).bind fun _ _ _ => ?_
        refine (Argument.bindAll_unplaced c.name c.positional tail).bind fun args own hargs => ?_
        refine .ok ?_
        rw [unplaced_mk, unplaced_mk, hsame, hargs]

/-- Tokens with the same texts are read alike. -/
theorem ofTokens_of_texts {tokens others : List Token}
    (h : others.map Token.text = tokens.map Token.text) :
    AgreeUnplaced unplaced (ofTokens table days lineLength nested tokens)
      (ofTokens table days otherLength nested others) := by
  have hunplaced : Token.unplaced = (fun text => ⟨text, 0⟩) ∘ Token.text := rfl
  have hmap : others.map Token.unplaced = tokens.map Token.unplaced := by
    rw [hunplaced, ← List.map_map, ← List.map_map, h]
  have hothers : AgreeUnplaced unplaced (ofTokens table days otherLength nested others)
      (ofTokens table days 0 nested (others.map Token.unplaced)) := ofTokens_unplaced others
  rw [hmap] at hothers
  exact (ofTokens_unplaced tokens).of_common hothers

/-- A line means what its token texts mean. With single blanks between them they are the tokens
of a line that holds the same query but for places, or that is wrong in the same way. -/
theorem parse_respaced (table : CommandTable) (days : Nat) (nested : Bool) (line : String) :
    (tokenize (respaced line)).map Token.text = (tokenize line).map Token.text ∧
      ((∃ q r, parse table days nested line = .ok q ∧
          parse table days nested (respaced line) = .ok r ∧ q.unplaced = r.unplaced) ∨
        ∃ f g, parse table days nested line = .error f ∧
          parse table days nested (respaced line) = .error g ∧
          f.toDiagnostic.id = g.toDiagnostic.id ∧
          f.toDiagnostic.message = g.toDiagnostic.message ∧
          f.toDiagnostic.context = g.toDiagnostic.context) := by
  have htexts := map_text_tokenize_respaced line
  refine ⟨htexts, ?_⟩
  rcases (ofTokens_of_texts htexts).cases with hok | ⟨f, g, hf, hg, hsame⟩
  · exact .inl hok
  · exact .inr ⟨f, g, hf, hg, congrArg (·.toDiagnostic.id) hsame,
      congrArg (·.toDiagnostic.message) hsame, congrArg (·.toDiagnostic.context) hsame⟩

end Query

end Almanac
