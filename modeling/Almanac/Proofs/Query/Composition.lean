import Almanac.Proofs.Query.Cutting
import Almanac.Proofs.Query.Grammar

/-!
Queries are made of queries. How tokens are read does not depend on where in a line they stand,
so tokens that are moved as a whole give the same query, moved as a whole. A sub-query is read
from a stretch of tokens of its own, and these are all the tokens of the text under its span.
-/

namespace Almanac

def Argument.shift (a : Argument) (offset : Nat) : Argument :=
  { a with span := a.span.shift offset }

namespace Query

mutual

/-- The same query in a line that starts so many bytes earlier. -/
def shift (offset : Nat) : Query → Query
  | ⟨command, variant, args, subQueries, span⟩ =>
    ⟨command, variant, args.map (·.shift offset), shiftAll offset subQueries, span.shift offset⟩

def shiftAll (offset : Nat) : List Query → List Query
  | [] => []
  | q :: rest => shift offset q :: shiftAll offset rest

end

theorem shiftAll_eq (offset : Nat) (qs : List Query) :
    shiftAll offset qs = qs.map (shift offset) := by
  induction qs with
  | nil => rfl
  | cons q rest ih => rw [shiftAll, ih, List.map_cons]

theorem shift_mk (offset : Nat) (command : String) (variant : Option String)
    (args : List Argument) (subQueries : List Query) (span : Span) :
    shift offset ⟨command, variant, args, subQueries, span⟩ =
      ⟨command, variant, args.map (·.shift offset), subQueries.map (shift offset),
        span.shift offset⟩ := by
  rw [shift, shiftAll_eq]

@[simp] theorem command_shift (offset : Nat) (q : Query) :
    (q.shift offset).command = q.command := by
  cases q
  rw [shift_mk]

@[simp] theorem span_shift (offset : Nat) (q : Query) :
    (q.shift offset).span = q.span.shift offset := by
  cases q
  rw [shift_mk]

theorem arg?_shift (offset : Nat) (q : Query) (name : String) :
    (q.shift offset).arg? name = (q.arg? name).map (·.shift offset) := by
  cases q
  rw [shift_mk]
  exact List.find?_map ..

theorem row?_shift (offset : Nat) (q : Query) (name : String) :
    (q.shift offset).row? name = q.row? name := by
  rw [row?, row?, arg?_shift, Option.map_map]
  rfl

theorem date?_shift (offset : Nat) (q : Query) (name : String) :
    (q.shift offset).date? name = q.date? name := by
  rw [date?, date?, arg?_shift, Option.map_map]
  rfl

end Query

/-! Reading moved tokens -/

variable {table : CommandTable} {days lineLength otherLength offset : Nat} {nested : Bool}

theorem Span.cover_shift (s t : Span) (offset : Nat) :
    (s.shift offset).cover (t.shift offset) = (s.cover t).shift offset := by
  simp only [cover, shift, Nat.add_le_add_iff_left]
  split <;> split <;> rfl

theorem Token.span_shift (t : Token) (offset : Nat) :
    (t.shift offset).span = t.span.shift offset := by
  rw [span, stop_shift]
  rfl

namespace Argument

variable {command : String}

theorem bind_shift_eq_ok_iff {param : Param} {token : Token} {a : Argument} :
    bind days command nested param (token.shift offset) = .ok a ↔
      ∃ b, bind days command nested param token = .ok b ∧ a = b.shift offset := by
  simp only [bind_eq_ok_iff, Token.span_shift, Token.text_shift]
  constructor
  · intro h
    obtain ⟨value, hvalue, rfl⟩ := h
    exact ⟨_, ⟨value, hvalue, rfl⟩, rfl⟩
  · intro h
    obtain ⟨_, ⟨value, hvalue, rfl⟩, rfl⟩ := h
    exact ⟨value, hvalue, rfl⟩

theorem bindAll_shift_eq_ok_iff {params : List Param} {tokens : List Token}
    {args : List Argument} :
    bindAll days command nested params (tokens.map (·.shift offset)) = .ok args ↔
      ∃ own, bindAll days command nested params tokens = .ok own ∧
        args = own.map (·.shift offset) := by
  simp only [bindAll_eq_ok_iff, List.zip_map_right, List.forall₂_map_left_iff, Prod.map_fst,
    Prod.map_snd, id_eq, bind_shift_eq_ok_iff, forall₂_image_iff]

end Argument

namespace Query

theorem runSpan_shift (head : Token) (tail : List Token) (offset : Nat) :
    runSpan (head.shift offset) (tail.map (·.shift offset)) = (runSpan head tail).shift offset := by
  rw [runSpan, runSpan, ← Span.cover_shift, ← Token.span_shift, ← Token.span_shift,
    List.getLast?_map]
  cases tail.getLast? <;> rfl

/-- Moved tokens are divided like the tokens themselves, and nothing is wrong with one division
if nothing is wrong with the other. -/
theorem divide_shift (c : Command) (stop stop' : Nat) (tail : List Token) (offset : Nat) :
    (divide table c nested stop' (tail.map (·.shift offset))).runs =
        (divide table c nested stop tail).runs.map (List.map (·.shift offset)) ∧
      ((divide table c nested stop' (tail.map (·.shift offset))).fault = none ↔
        (divide table c nested stop tail).fault = none) := by
  simp only [divide, divideInTwo, secondStart?, ← List.map_drop, lastIndex?_map, Token.text_shift,
    List.length_map, List.isEmpty_map]
  split
  · split <;> simp
  · split <;> simp
  · split
    · split <;> simp
    · simp
    · simp [List.map_take, List.map_drop]

/-- A command word and the tokens after it head a query exactly when they do so elsewhere. -/
theorem heads_shift_iff {head : Token} {tail : List Token} {c : Command} {args : List Argument}
    {runs : List (List Token)} :
    Heads table days nested (head.shift offset) (tail.map (·.shift offset)) c args runs ↔
      ∃ own parts, Heads table days nested head tail c own parts ∧
        args = own.map (·.shift offset) ∧ runs = parts.map (List.map (·.shift offset)) := by
  obtain ⟨hruns, hfault⟩ := @divide_shift table nested c (runSpan head tail).stop
    (runSpan (head.shift offset) (tail.map (·.shift offset))).stop tail offset
  constructor
  · intro h
    obtain ⟨own, hown, hargs⟩ := Argument.bindAll_shift_eq_ok_iff.mp h.bound
    refine ⟨own, (divide table c nested (runSpan head tail).stop tail).runs,
      ⟨?_, ?_, ?_, hown⟩, hargs, ?_⟩
    · simpa [Function.comp_def] using h.resolved
    · simpa using h.enough
    · rw [h.divided] at hfault
      rw [← hfault.mp rfl]
    · rw [← hruns, h.divided]
  · intro h
    obtain ⟨own, parts, h, hargs, rfl⟩ := h
    refine ⟨by simpa [Function.comp_def] using h.resolved, by simpa using h.enough, ?_,
      Argument.bindAll_shift_eq_ok_iff.mpr ⟨own, h.bound, hargs⟩⟩
    rw [h.divided] at hruns hfault
    rw [← hruns, ← hfault.mpr rfl]

/-- Moved tokens are read as the same query, moved as they are. -/
theorem ofTokens_shift_eq_ok_iff {tokens : List Token} {q : Query} :
    ofTokens table days lineLength nested (tokens.map (·.shift offset)) = .ok q ↔
      ∃ r, ofTokens table days otherLength nested tokens = .ok r ∧ q = r.shift offset := by
  induction nested, tokens using tokens_induct table generalizing q with
  | nil nested => simp [ofTokens]
  | cons nested head tail ih =>
    have hbelow : ∀ c args runs, Heads table days nested head tail c args runs →
        ∀ run ∈ runs, ∀ s,
          ofTokens table days lineLength true (run.map (·.shift offset)) = .ok s ↔
            ∃ r, ofTokens table days otherLength true run = .ok r ∧ s = r.shift offset := by
      intro c args runs hheads run hrun s
      refine ih c (runSpan head tail).stop run ?_
      rw [hheads.divided]
      exact hrun
    rw [List.map_cons, ofTokens_cons_eq_ok_iff]
    simp only [ofTokens_cons_eq_ok_iff, heads_shift_iff, runSpan_shift]
    constructor
    · intro h
      obtain ⟨c, _, _, subQueries, ⟨own, parts, hheads, rfl, rfl⟩, hsubs, rfl⟩ := h
      rw [List.forall₂_map_left_iff, forall₂_congr_left (hbelow c own parts hheads),
        forall₂_image_iff] at hsubs
      obtain ⟨found, hfound, rfl⟩ := hsubs
      exact ⟨_, ⟨c, own, parts, found, hheads, hfound, rfl⟩, (shift_mk ..).symm⟩
    · intro h
      obtain ⟨_, ⟨c, own, parts, found, hheads, hfound, rfl⟩, rfl⟩ := h
      refine ⟨c, _, _, found.map (shift offset), ⟨own, parts, hheads, rfl, rfl⟩, ?_,
        shift_mk ..⟩
      rw [List.forall₂_map_left_iff, forall₂_congr_left (hbelow c own parts hheads),
        forall₂_image_iff]
      exact ⟨found, hfound, rfl⟩

/-! Sub-queries -/

/-- Every query inside another one is read from a stretch of its tokens. -/
theorem exists_infix_of_ofTokens {tokens : List Token} {q : Query}
    (h : ofTokens table days lineLength nested tokens = .ok q) :
    ∀ sub ∈ q.subQueries, ∀ s ∈ sub.nodes,
      ∃ run, run <:+: tokens ∧ ofTokens table days lineLength true run = .ok s := by
  refine ofTokens_induct (motive := fun _ tokens q => ∀ sub ∈ q.subQueries, ∀ s ∈ sub.nodes,
    ∃ run, run <:+: tokens ∧ ofTokens table days lineLength true run = .ok s) ?_ h
  intro nested head tail c args runs subQueries hheads hsubs sub hsub s hs
  obtain ⟨run, hrun, hread, hbelow⟩ := exists_mem_of_forall₂ hsubs hsub
  have hinfix : run <:+: head :: tail := by
    have hflatten : run <:+: runs.flatten := List.infix_of_mem_flatten hrun
    rw [hheads.flatten_runs] at hflatten
    exact hflatten.trans ((List.drop_suffix _ _).trans (List.suffix_cons _ _)).isInfix
  rcases mem_nodes_iff.mp hs with rfl | ⟨below, hmem, hs⟩
  · exact ⟨run, hinfix, hread⟩
  · obtain ⟨run', hrun', hread'⟩ := hbelow below hmem s hs
    exact ⟨run', hrun'.trans hinfix, hread'⟩

/-- A stretch of the tokens of a line that is read as a query is the text under its span, and this
text is by itself a line that holds the query, moved to the start of the line. -/
theorem exists_parse_of_infix {line : String} {run : List Token} {s : Query}
    (hrun : run <:+: tokenize line) (hread : ofTokens table days lineLength nested run = .ok s) :
    ∃ front text back, line.toList = front ++ text ++ back ∧
      Text.width front = s.span.start ∧ Text.width (front ++ text) = s.span.stop ∧
      ∃ r, parse table days nested (String.ofList text) = .ok r ∧ r.shift s.span.start = s := by
  obtain ⟨xs, ys, hline⟩ := hrun
  have hordered : run.Pairwise Token.Before :=
    (Token.pairwise_tokenize line).sublist (List.IsInfix.sublist ⟨xs, ys, hline⟩)
  obtain ⟨htokens, hlaid⟩ := tokens_of_ofTokens hread hordered
  have hfirst : run.head? = some s.head := by
    rw [← htokens, tokens_eq]
    rfl
  obtain ⟨last, hlast, hstop⟩ :=
    Option.map_eq_some_iff.mp (hlaid s (mem_nodes_iff.mpr (.inl rfl))).ends_last
  rw [htokens] at hlast
  have hscan : Token.scan line.toList = xs ++ (run ++ ys) := by
    rw [← List.append_assoc]
    exact hline.symm
  obtain ⟨front, text, back, hsplit, hstart, hend, hmoved⟩ :=
    Token.exists_stretch hscan hfirst hlast
  refine ⟨front, text, back, hsplit, hstart, hend.trans hstop, ?_⟩
  rw [← hmoved] at hread
  obtain ⟨r, hr, hshift⟩ := ofTokens_shift_eq_ok_iff.mp hread
  refine ⟨r, ?_, hshift.symm⟩
  rw [parse, tokenize, String.toList_ofList]
  exact hr

/-- The text under the span of a query inside another one is by itself a line that holds that
query, moved to the start of the line. -/
theorem parse_of_mem_subQueries {line : String} {q sub s : Query}
    (h : parse table days nested line = .ok q) (hsub : sub ∈ q.subQueries) (hs : s ∈ sub.nodes) :
    ∃ front text back, line.toList = front ++ text ++ back ∧
      Text.width front = s.span.start ∧ Text.width (front ++ text) = s.span.stop ∧
      ∃ r, parse table days true (String.ofList text) = .ok r ∧ r.shift s.span.start = s := by
  obtain ⟨run, hrun, hread⟩ := exists_infix_of_ofTokens h sub hsub s hs
  exact exists_parse_of_infix hrun hread

theorem parse_of_second_subQuery :
    ∃ q sub, parse CommandTable.builtin 3 false "compare dataset min `a` max `b`" = .ok q ∧
      sub ∈ q.subQueries ∧ sub ∈ sub.nodes ∧ sub.span.start = 24 ∧
      ∃ front text back, "compare dataset min `a` max `b`".toList = front ++ text ++ back ∧
        Text.width front = sub.span.start ∧ Text.width (front ++ text) = sub.span.stop ∧
        ∃ r, parse CommandTable.builtin 3 true (String.ofList text) = .ok r ∧
          r.shift sub.span.start = sub := by
  have hfirst : Grammar.Sub 3 ["min", "`a`"] := .aggregate (by decide)
    (.whole ⟨by decide +kernel, by decide +kernel, by decide +kernel⟩)
  have hsecond : Grammar.Sub 3 ["max", "`b`"] := .aggregate (by decide)
    (.whole ⟨by decide +kernel, by decide +kernel, by decide +kernel⟩)
  obtain ⟨q, s, t, hq, hsubs, -, ht⟩ := @Grammar.ofTokens_dataset 3 31 ⟨"compare", 0⟩
    ⟨"dataset", 8⟩ [⟨"min", 16⟩, ⟨"`a`", 20⟩] [⟨"max", 24⟩, ⟨"`b`", 28⟩] rfl rfl hfirst hsecond
  have hline : tokenize "compare dataset min `a` max `b`" =
      [⟨"compare", 0⟩, ⟨"dataset", 8⟩, ⟨"min", 16⟩, ⟨"`a`", 20⟩, ⟨"max", 24⟩, ⟨"`b`", 28⟩] := by
    decide +kernel
  have hparse : parse CommandTable.builtin 3 false "compare dataset min `a` max `b`" = .ok q := by
    rw [parse, hline]
    exact hq
  have hmem : t ∈ q.subQueries := by simp [hsubs]
  have hself : t ∈ t.nodes := mem_nodes_iff.mpr (.inl rfl)
  have hstart : t.span.start = 24 := by
    have htokens := (tokens_of_ofTokens ht (by simp [Token.Before]; decide)).1
    rw [tokens_eq] at htokens
    exact congrArg Token.start (List.cons.inj htokens).1
  exact ⟨q, t, hparse, hmem, hself, hstart, parse_of_mem_subQueries hparse hmem hself⟩

end Query

end Almanac
