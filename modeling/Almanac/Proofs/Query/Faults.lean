import Almanac.Proofs.Query.Extent
import Almanac.Proofs.Query.Indexing
import Almanac.Proofs.Query.Listing
import Almanac.Proofs.Query.Separation
import Mathlib.Data.List.Infix

/-!
Where faults lie. What is wrong with a line lies on a stretch of its tokens, or nothing is wrong
but that something is missing, and then the fault lies right behind a token. A value that does not
fit its parameter is the text of the token that the fault lies on. The diagnostic of a line says so
at any depth of nesting.
-/

namespace Almanac

/-- The span reaches over a stretch of tokens, or it is empty behind one of them. If there are no
tokens, it is empty where the line ends. -/
inductive Span.Touches (lineEnd : Nat) (tokens : List Token) : Span → Prop
  | covers {run : List Token} {first last : Token} (hrun : run <:+: tokens)
      (hfirst : run.head? = some first) (hlast : run.getLast? = some last) :
      Touches lineEnd tokens ⟨first.start, last.stop⟩
  | follows {t : Token} (h : t ∈ tokens) : Touches lineEnd tokens (.empty t.stop)
  | blank (h : tokens = []) : Touches lineEnd tokens (.empty lineEnd)

/-- What touches some of the tokens touches them all. -/
theorem Span.Touches.mono {lineEnd : Nat} {run tokens : List Token} {s : Span}
    (h : s.Touches lineEnd run) (hne : run ≠ []) (hrun : run <:+: tokens) :
    s.Touches lineEnd tokens := by
  cases h with
  | covers hstretch hfirst hlast => exact .covers (hstretch.trans hrun) hfirst hlast
  | follows hmem => exact .follows (hrun.subset hmem)
  | blank hnil => exact absurd hnil hne

theorem Token.touches_span {lineEnd : Nat} {tokens : List Token} {t : Token} (h : t ∈ tokens) :
    t.span.Touches lineEnd tokens :=
  have hrun : [t] <:+: tokens := (List.singleton_infix_iff t tokens).mpr h
  .covers hrun rfl rfl

/-- The fault is one of the tokens: it touches them, and a value that it is about is the text of
the token that it lies on. -/
structure Fault.Concerns (lineEnd : Nat) (tokens : List Token) (fault : Fault) : Prop where
  touches : fault.span.Touches lineEnd tokens
  value : ∀ command param value problem,
    fault.problem = .badArgument command param value problem →
      ∃ t ∈ tokens, fault.span = t.span ∧ t.text = value

theorem Fault.Concerns.mono {lineEnd : Nat} {run tokens : List Token} {fault : Fault}
    (h : fault.Concerns lineEnd run) (hne : run ≠ []) (hrun : run <:+: tokens) :
    fault.Concerns lineEnd tokens where
  touches := h.touches.mono hne hrun
  value command param value problem hproblem := by
    obtain ⟨t, ht, hspan, htext⟩ := h.value command param value problem hproblem
    exact ⟨t, hrun.subset ht, hspan, htext⟩

namespace Query

variable {table : CommandTable} {days lineLength lineEnd : Nat} {nested : Bool}

/-- Neighbouring tokens are covered from the first to the last. -/
theorem touches_runSpan {tokens : List Token} {head : Token} {tail : List Token}
    (hordered : (head :: tail).Pairwise Token.Before) (h : head :: tail <:+: tokens) :
    (runSpan head tail).Touches lineEnd tokens := by
  have hlast : (head :: tail).getLast? = some (tail.getLast?.getD head) := List.getLast?_cons
  rw [runSpan_eq hordered hlast]
  exact .covers h rfl hlast

theorem concerns_unresolved {head : Token} {tail : List Token}
    (hordered : (head :: tail).Pairwise Token.Before) :
    (unresolved table nested head tail.head?).Concerns lineEnd (head :: tail) := by
  have hhead : head.span.Touches lineEnd (head :: tail) := Token.touches_span List.mem_cons_self
  unfold unresolved
  split
  · split
    · exact ⟨hhead, by simp⟩
    · exact ⟨hhead, by simp⟩
  · cases tail with
    | nil => exact ⟨hhead, by simp⟩
    | cons next more =>
      have hpair : [head, next] <:+: head :: next :: more :=
        (List.prefix_append [head, next] more).isInfix
      have hboth : [head, next].Pairwise Token.Before := hordered.sublist hpair.sublist
      exact ⟨touches_runSpan hboth hpair, by simp⟩

/-- The fault of too many tokens lies on those that are too many. -/
theorem concerns_tooMany {c : Command} {tail : List Token} (hordered : tail.Pairwise Token.Before)
    (hmany : c.params.length < tail.length) : (tooMany c nested tail).Concerns lineEnd tail := by
  unfold tooMany
  dsimp only
  split
  · rename_i hrest
    rw [List.drop_eq_nil_iff] at hrest
    omega
  · rename_i first more hrest
    refine ⟨touches_runSpan ?_ ?_, by simp⟩
    · rw [← hrest]
      exact hordered.drop
    · rw [← hrest]
      exact (List.drop_suffix _ _).isInfix

/-- A missing sub-query is missed behind the last token. -/
theorem concerns_divide {c : Command} {head : Token} {tail : List Token} {fault : Fault}
    (hordered : (head :: tail).Pairwise Token.Before)
    (h : (divide table c nested (runSpan head tail).stop tail).fault = some fault) :
    fault.Concerns lineEnd (head :: tail) := by
  rcases fault_divide h with ⟨hmany, rfl⟩ | ⟨param, rfl⟩
  · have hconcerns := @concerns_tooMany lineEnd nested c tail
      (List.pairwise_cons.mp hordered).2 hmany
    exact hconcerns.mono (List.ne_nil_of_length_pos (by omega)) (List.suffix_cons _ _).isInfix
  · have hlast : (head :: tail).getLast? = some (tail.getLast?.getD head) := List.getLast?_cons
    rw [runSpan_eq hordered hlast]
    exact ⟨.follows (List.mem_of_getLast? hlast), by simp [missing]⟩

theorem concerns_bindAll {command : String} {params : List Param} {tokens : List Token}
    {fault : Fault} (h : Argument.bindAll days command nested params tokens = .error fault) :
    fault.Concerns lineEnd tokens := by
  rw [Argument.bindAll_eq_mapM] at h
  obtain ⟨⟨param, token⟩, hzip, hfault⟩ := exists_of_mapM_eq_error h
  have hmem : token ∈ tokens := (List.of_mem_zip hzip).2
  unfold Argument.bind at hfault
  split at hfault
  · cases hfault
  · obtain rfl := Except.error.inj hfault
    refine ⟨Token.touches_span hmem, ?_⟩
    rintro command' param' value problem ⟨⟩
    exact ⟨token, hmem, rfl, rfl⟩

/-- Whatever is wrong with tokens in order is a fault of theirs, also where it is wrong with a
sub-query. -/
theorem concerns_ofTokens (tokens : List Token) (hordered : tokens.Pairwise Token.Before) :
    Yields (Fault.Concerns lineLength tokens) (fun _ => True)
      (ofTokens table days lineLength nested tokens) := by
  induction nested, tokens using tokens_induct table with
  | nil nested =>
    rw [ofTokens]
    exact ⟨.blank rfl, by simp⟩
  | cons nested head tail ih =>
    have htail : tail <:+: head :: tail := (List.suffix_cons _ _).isInfix
    rw [ofTokens_cons]
    cases table.resolve head.text (tail.head?.map Token.text) nested with
    | none => exact concerns_unresolved hordered
    | some c =>
      simp only
      split
      · exact ⟨touches_runSpan hordered (List.infix_refl _), by simp⟩
      · have hruns : ∀ run ∈ (divide table c nested (runSpan head tail).stop tail).runs,
            Yields (Fault.Concerns lineLength (head :: tail)) (fun _ => True)
              (ofTokens table days lineLength true run) := by
          intro run hrun
          obtain ⟨hpart, hne⟩ := infix_of_mem_divide hrun
          have hbelow := ih c _ run hrun (hordered.sublist (hpart.trans htail).sublist)
          cases hread : ofTokens table days lineLength true run with
          | error fault => exact (hbelow.of_eq_error hread).mono hne (hpart.trans htail)
          | ok q => trivial
        refine (Yields.mapM hruns).bind fun subQueries _ => ?_
        refine Yields.bind (R := fun _ => True) ?_ fun _ _ => ?_
        · cases hdivided : (divide table c nested (runSpan head tail).stop tail).fault with
          | none => trivial
          | some fault => exact concerns_divide hordered hdivided
        cases hbound : Argument.bindAll days c.name nested c.positional tail with
        | error fault =>
          have hne : tail ≠ [] := by
            rintro rfl
            simp [Argument.bindAll_eq_mapM, pure, Except.pure] at hbound
          exact (concerns_bindAll hbound).mono hne htail
        | ok args => trivial

end Query

/-! Diagnostics -/

/-- What touches the tokens of a line is cut out of it between characters. -/
theorem Span.Touches.cuts {line : String} {s : Span}
    (h : s.Touches (Text.byteLength line) (tokenize line)) : s.Cuts line := by
  cases h with
  | covers hrun hfirst hlast =>
    obtain ⟨xs, ys, hsplit⟩ := hrun
    rw [List.append_assoc] at hsplit
    obtain ⟨front, text, back, hline, hstart, hstop, -⟩ :=
      Token.exists_stretch hsplit.symm hfirst hlast
    exact cuts_of_split hline hstart hstop
  | @follows t hmem =>
    obtain ⟨front, back, hline, -, hstop⟩ := (Token.cuts_tokenize hmem).1
    have hempty : line.toList = front ++ (t.span.textIn line).toList ++ [] ++ back := by
      rw [List.append_nil, hline]
    exact cuts_of_split hempty hstop (by rw [List.append_nil, hstop]; rfl)
  | blank _ =>
    have hempty : line.toList = line.toList ++ [] ++ [] := by
      rw [List.append_nil, List.append_nil]
    exact cuts_of_split hempty rfl (by rw [List.append_nil]; rfl)

def Diagnostic.argumentIds : List String :=
  ["WQ1101", "WQ1102", "WQ1103", "WQ1104", "WQ1105", "WQ1106", "WQ1901"]

theorem Problem.exists_of_argumentIds {p : Problem} (h : p.code.id ∈ Diagnostic.argumentIds) :
    ∃ command param value problem, p = .badArgument command param value problem := by
  cases p with
  | badArgument command param value problem => exact ⟨command, param, value, problem, rfl⟩
  | _ => simp [Problem.code, Diagnostic.Code.id, Diagnostic.argumentIds] at h

/-- The diagnostic points at a part of a line: a stretch of tokens, or a place behind one. One
about an argument quotes the part that it points at. -/
structure Diagnostic.PointsAt (d : Diagnostic) (line : String) (span : Span) : Prop where
  span_eq : d.span = some span
  ordered : span.start ≤ span.stop
  inside : span.stop ≤ Text.byteLength line
  cuts : span.Cuts line
  touches : span.Touches (Text.byteLength line) (tokenize line)
  quotes : d.id ∈ argumentIds → d.detail? "value" = some (span.textIn line)

theorem Fault.Concerns.pointsAt {line : String} {fault : Fault}
    (h : fault.Concerns (Text.byteLength line) (tokenize line)) :
    fault.toDiagnostic.PointsAt line fault.span where
  span_eq := rfl
  ordered := h.touches.cuts.start_le_stop
  inside := h.touches.cuts.stop_le
  cuts := h.touches.cuts
  touches := h.touches
  quotes hid := by
    obtain ⟨command, param, value, problem, hproblem⟩ := Problem.exists_of_argumentIds hid
    obtain ⟨t, ht, hspan, htext⟩ := h.value command param value problem hproblem
    rw [hspan, (Token.cuts_tokenize ht).2, htext, Diagnostic.detail?]
    simp [Fault.toDiagnostic, Diagnostic.error, hproblem, Problem.details, Keyed.find?]

namespace Query

variable {table : CommandTable} {days : Nat} {nested : Bool}

/-- The diagnostic of a line that is not accepted points at tokens of the line, or behind one, at
any depth of nesting. In reading the line every token, run and name that is taken by its position
is there, and every token has its text where its span is. -/
theorem pointsAt_of_parse (table : CommandTable) (days : Nat) (nested : Bool) (line : String) :
    readLine table days nested line = Indexed.answer (parse table days nested line) ∧
      (∀ t ∈ tokenize line, Span.ofBounds? t.start t.stop = some t.span ∧ t.span.Cuts line ∧
        t.span.textIn line = t.text) ∧
      ∀ fault, parse table days nested line = .error fault →
        ∃ span, fault.toDiagnostic.PointsAt line span := by
  refine ⟨readLine_eq line, fun t ht => ?_, fun fault hfault => ?_⟩
  · exact ⟨if_pos t.start_le_stop, Token.cuts_tokenize ht⟩
  · have hconcerns := @concerns_ofTokens table days (Text.byteLength line) nested (tokenize line)
      (Token.pairwise_tokenize line)
    exact ⟨fault.span, (hconcerns.of_eq_error hfault).pointsAt⟩

/-- What is wrong with the first sub-query is wrong with the query. -/
theorem ofTokens_of_firstRun {lineLength : Nat} {head : Token} {tail run : List Token}
    {runs : List (List Token)} {c : Command} {fault : Fault}
    (hresolved : table.resolve head.text (tail.head?.map Token.text) nested = some c)
    (henough : c.required.length ≤ tail.length)
    (hruns : (divide table c nested (runSpan head tail).stop tail).runs = run :: runs)
    (hrun : ofTokens table days lineLength true run = .error fault) :
    ofTokens table days lineLength nested (head :: tail) = .error fault := by
  rw [ofTokens_cons, hresolved]
  simp only [if_neg (Nat.not_lt.mpr henough), hruns, List.mapM_cons, hrun]
  rfl

/-- In a line that compares two queries of a dataset with two days, the first asks for a day that
there is not. -/
theorem pointsAt_of_missing_day :
    let line := "compare dataset min `a` 9 max `b`"
    ∃ fault, parse CommandTable.builtin 2 false line = .error fault ∧
      fault.toDiagnostic.id = "WQ1106" ∧ fault.toDiagnostic.PointsAt line ⟨24, 25⟩ := by
  intro line
  have htokens : tokenize line =
      [⟨"compare", 0⟩, ⟨"dataset", 8⟩, ⟨"min", 16⟩, ⟨"`a`", 20⟩, ⟨"9", 24⟩, ⟨"max", 26⟩,
        ⟨"`b`", 30⟩] := by
    decide +kernel
  have hleft : ofTokens CommandTable.builtin 2 33 true [⟨"min", 16⟩, ⟨"`a`", 20⟩, ⟨"9", 24⟩] =
      .error ⟨.badArgument "min" "start" "9" (.dateIndexOutOfRange 2), true, ⟨24, 25⟩⟩ := by
    rw [ofTokens_cons]
    rfl
  have hparse : parse CommandTable.builtin 2 false line =
      .error ⟨.badArgument "min" "start" "9" (.dateIndexOutOfRange 2), true, ⟨24, 25⟩⟩ := by
    have hlength : Text.byteLength line = 33 := by decide +kernel
    have hruns : ∀ stop, (divide CommandTable.builtin CommandTable.builtin.commands[9] false stop
        [⟨"dataset", 8⟩, ⟨"min", 16⟩, ⟨"`a`", 20⟩, ⟨"9", 24⟩, ⟨"max", 26⟩, ⟨"`b`", 30⟩]).runs =
          [[⟨"min", 16⟩, ⟨"`a`", 20⟩, ⟨"9", 24⟩], [⟨"max", 26⟩, ⟨"`b`", 30⟩]] := fun _ => rfl
    rw [parse, htokens, hlength]
    exact ofTokens_of_firstRun rfl (by decide) (hruns _) hleft
  obtain ⟨span, hspan⟩ := (pointsAt_of_parse CommandTable.builtin 2 false line).2.2 _ hparse
  obtain rfl : (⟨24, 25⟩ : Span) = span := Option.some.inj hspan.span_eq
  exact ⟨_, hparse, rfl, hspan⟩

end Query

end Almanac
