import Almanac.Proofs.Query.Parsing
import Almanac.Proofs.Query.Token
import Almanac.Proofs.Query.Tree
import Almanac.Proofs.Table.Resolution
import Almanac.Table.Builtin

/-!
A query that is read from a line lists, depth first, exactly the tokens of the line, each where
it stands. Its spans lie as the tokens do: an argument takes the place of its token, a query
reaches from its command word to the last token below it, and its sub-queries follow its
arguments one after another.
-/

namespace Almanac

namespace Argument

variable {days : Nat} {command : String} {nested : Bool}

/-- An argument has the text and the place of the token it was bound to. -/
theorem token_of_bind {param : Param} {token : Token} {a : Argument}
    (h : bind days command nested param token = .ok a) :
    a.token = token ∧ a.span = a.token.span := by
  obtain ⟨value, _, rfl⟩ := bind_eq_ok_iff.mp h
  exact ⟨rfl, rfl⟩

theorem map_token_of_bindAll {params : List Param} {tokens : List Token} {args : List Argument}
    (h : bindAll days command nested params tokens = .ok args) :
    args.map token = tokens.take params.length ∧ ∀ a ∈ args, a.span = a.token.span := by
  induction params generalizing tokens args with
  | nil =>
    obtain rfl : args = [] := by simpa using bindAll_eq_ok_iff.mp h
    simp
  | cons param params ih =>
    cases tokens with
    | nil =>
      obtain rfl : args = [] := by simpa using bindAll_eq_ok_iff.mp h
      simp
    | cons token tokens =>
      have hbound := bindAll_eq_ok_iff.mp h
      rw [List.zip_cons_cons, List.forall₂_cons_left_iff] at hbound
      obtain ⟨a, rest, ha, hrest, rfl⟩ := hbound
      obtain ⟨hmap, hspans⟩ := ih (bindAll_eq_ok_iff.mpr hrest)
      obtain ⟨htoken, hspan⟩ := token_of_bind ha
      refine ⟨?_, List.forall_mem_cons.mpr ⟨hspan, hspans⟩⟩
      rw [List.map_cons, htoken, hmap, List.length_cons, List.take_succ_cons]

end Argument

namespace Query

variable {table : CommandTable} {days lineLength : Nat} {nested : Bool}

/-- A query whose own spans lie as its tokens do. -/
structure LaidOut (q : Query) : Prop where
  args_span : ∀ a ∈ q.args, a.span = a.token.span
  ends_last : q.tokens.getLast?.map Token.stop = some q.span.stop
  inside : ∀ s ∈ q.subQueries, q.span.start < s.span.start ∧ s.span.stop ≤ q.span.stop
  after_args : ∀ s ∈ q.subQueries, ∀ a ∈ q.args, a.span.stop < s.span.start
  apart : q.subQueries.Pairwise fun s t => s.span.stop < t.span.start

theorem runSpan_eq {head : Token} {tail : List Token}
    (h : (head :: tail).Pairwise Token.Before) {last : Token}
    (hlast : (head :: tail).getLast? = some last) :
    runSpan head tail = ⟨head.start, last.stop⟩ := by
  have hgetD : tail.getLast?.getD head = last := by
    rw [List.getLast?_cons, Option.some.injEq] at hlast
    exact hlast
  have hfirst : head.stop ≤ last.stop := Token.stop_le_of_getLast? h hlast head List.mem_cons_self
  have hstart : head.start ≤ last.start := by
    rcases List.mem_cons.mp (List.mem_of_getLast? hlast) with rfl | hmem
    · exact Nat.le_refl _
    · have hbefore := List.rel_of_pairwise_cons h hmem
      exact Nat.le_trans head.start_le_stop (Nat.le_of_lt hbefore)
  simp only [runSpan, hgetD, Span.cover, Token.span, if_pos hstart, if_pos hfirst]

/-- The last token of a laid out query ends where the query does. -/
theorem LaidOut.exists_last {q : Query} (h : q.LaidOut) :
    ∃ last ∈ q.tokens, last.stop = q.span.stop := by
  obtain ⟨last, hlast, hstop⟩ := Option.map_eq_some_iff.mp h.ends_last
  exact ⟨last, List.mem_of_getLast? hlast, hstop⟩

theorem Heads.name_eq {head : Token} {tail : List Token} {c : Command} {args : List Argument}
    {runs : List (List Token)} (h : Heads table days nested head tail c args runs) :
    c.name = head.text :=
  (CommandTable.of_resolve_eq_some h.resolved).2.2.1

theorem Heads.flatten_runs {head : Token} {tail : List Token} {c : Command}
    {args : List Argument} {runs : List (List Token)}
    (h : Heads table days nested head tail c args runs) :
    runs.flatten = tail.drop c.positional.length := by
  have hflatten : (divide table c nested (runSpan head tail).stop tail).runs.flatten = _ :=
    flatten_runs_divide (by rw [h.divided])
  rwa [h.divided] at hflatten

theorem map_eq_and_forall_of_forall₂ {f : Query → List Token} {P : Query → Prop}
    {runs : List (List Token)} {qs : List Query}
    (h : List.Forall₂ (fun run s => f s = run ∧ P s) runs qs) :
    qs.map f = runs ∧ ∀ s ∈ qs, P s := by
  induction h with
  | nil => simp
  | cons hfirst _ ih =>
    exact ⟨by rw [List.map_cons, hfirst.1, ih.1], List.forall_mem_cons.mpr ⟨hfirst.2, ih.2⟩⟩

/-- A node over tokens in order: it lists them all, and it is laid out if its sub-queries are. -/
theorem laidOut_node {head : Token} {tail : List Token} {c : Command} {args : List Argument}
    {runs : List (List Token)} {subQueries : List Query}
    (hheads : Heads table days nested head tail c args runs)
    (hordered : (head :: tail).Pairwise Token.Before)
    (htokens : subQueries.map tokens = runs) (hlaid : ∀ s ∈ subQueries, s.LaidOut) :
    let q : Query := ⟨c.name, c.discriminant, args, subQueries, runSpan head tail⟩
    q.tokens = head :: tail ∧ q.LaidOut := by
  intro q
  obtain ⟨last, hlast⟩ : ∃ last, (head :: tail).getLast? = some last :=
    ⟨_, List.getLast?_eq_some_getLast (by simp)⟩
  have hspan : q.span = ⟨head.start, last.stop⟩ := runSpan_eq hordered hlast
  obtain ⟨hargs, hargSpans⟩ := Argument.map_token_of_bindAll hheads.bound
  have hsubs : subQueries.flatMap tokens = tail.drop c.positional.length := by
    rw [List.flatMap_def, htokens, hheads.flatten_runs]
  have hhead : q.head = head := by
    rw [Query.head, hspan]
    exact congrArg (Token.mk · head.start) hheads.name_eq
  have hall : q.tokens = head :: tail := by
    rw [tokens_eq, hhead, hsubs, hargs, List.take_append_drop]
  -- The arguments' tokens all come before the sub-queries'.
  have htail := (List.pairwise_cons.mp hordered).2
  rw [← List.take_append_drop c.positional.length tail, ← hargs, ← hsubs] at htail
  obtain ⟨_, hsubsOrdered, hbetween⟩ := List.pairwise_append.mp htail
  rw [List.flatMap_def, List.pairwise_flatten] at hsubsOrdered
  have hmem {s : Query} (hs : s ∈ subQueries) {t : Token} (ht : t ∈ s.tokens) : t ∈ tail := by
    apply List.mem_of_mem_drop (i := c.positional.length)
    rw [← hsubs]
    exact List.mem_flatMap.mpr ⟨s, hs, ht⟩
  refine ⟨hall, hargSpans, ?_, ?_, ?_, ?_⟩
  · rw [hall, hlast, hspan]
    rfl
  · intro s hs
    obtain ⟨final, hfinal, hstop⟩ := (hlaid s hs).exists_last
    have hfirst := List.rel_of_pairwise_cons hordered (hmem hs s.head_mem_tokens)
    have hend := Token.stop_le_of_getLast? hordered hlast final
      (List.mem_cons_of_mem _ (hmem hs hfinal))
    rw [hspan, ← hstop]
    exact ⟨Nat.lt_of_le_of_lt head.start_le_stop hfirst, hend⟩
  · intro s hs a ha
    rw [hargSpans a ha]
    exact hbetween a.token (List.mem_map_of_mem ha) s.head
      (List.mem_flatMap.mpr ⟨s, hs, s.head_mem_tokens⟩)
  · refine (List.pairwise_map.mp hsubsOrdered.2).imp_of_mem fun {s t} hs ht hst => ?_
    obtain ⟨final, hfinal, hstop⟩ := (hlaid s hs).exists_last
    rw [← hstop]
    exact hst final hfinal t.head t.head_mem_tokens

/-- A query lists the tokens it was read from and is laid out throughout. -/
theorem tokens_of_ofTokens {tokens : List Token} {q : Query}
    (h : ofTokens table days lineLength nested tokens = .ok q)
    (hordered : tokens.Pairwise Token.Before) :
    q.tokens = tokens ∧ ∀ s ∈ q.nodes, s.LaidOut := by
  revert hordered
  refine ofTokens_induct (motive := fun _ tokens q => tokens.Pairwise Token.Before →
    q.tokens = tokens ∧ ∀ s ∈ q.nodes, s.LaidOut) ?_ h
  intro nested head tail c args runs subQueries hheads hsubs hordered
  have hruns : runs.flatten.Pairwise Token.Before := by
    rw [hheads.flatten_runs]
    exact (List.pairwise_cons.mp hordered).2.drop
  have hread : List.Forall₂ (fun run s => s.tokens = run ∧ ∀ t ∈ s.nodes, t.LaidOut)
      runs subQueries := by
    rw [List.forall₂_iff_zip] at hsubs ⊢
    refine ⟨hsubs.1, fun {run s} hzip => ?_⟩
    exact (hsubs.2 hzip).2 ((List.pairwise_flatten.mp hruns).1 run (List.of_mem_zip hzip).1)
  obtain ⟨htokens, hbelow⟩ := map_eq_and_forall_of_forall₂ hread
  obtain ⟨hall, hlaid⟩ := laidOut_node hheads hordered htokens
    fun s hs => hbelow s hs s (mem_nodes_iff.mpr (.inl rfl))
  exact ⟨hall, forall_nodes hlaid hbelow⟩

/-- Nothing of a line is lost, repeated or moved when it is read: listed depth first, the query
has exactly the tokens of the line. At every node, the tokens stand together in the line and the
spans lie as the tokens do. -/
theorem tokens_eq_tokenize_of_parse {line : String} {q : Query}
    (h : parse table days nested line = .ok q) :
    q.tokens = tokenize line ∧ ∀ s ∈ q.nodes, s.tokens <:+: tokenize line ∧ s.LaidOut := by
  obtain ⟨hall, hlaid⟩ := tokens_of_ofTokens h (Token.pairwise_tokenize line)
  refine ⟨hall, fun s hs => ⟨?_, hlaid s hs⟩⟩
  rw [← hall]
  exact tokens_infix_of_mem_nodes hs

theorem tokens_of_comparison_line :
    ∃ q, parse CommandTable.builtin 2 false "compare dataset min `a` 0 max `b`" = .ok q ∧
      q.tokens = tokenize "compare dataset min `a` 0 max `b`" ∧
      ∀ s ∈ q.nodes,
        s.tokens <:+: tokenize "compare dataset min `a` 0 max `b`" ∧ s.LaidOut := by
  have htokens : tokenize "compare dataset min `a` 0 max `b`" =
      [⟨"compare", 0⟩, ⟨"dataset", 8⟩, ⟨"min", 16⟩, ⟨"`a`", 20⟩, ⟨"0", 24⟩, ⟨"max", 26⟩,
        ⟨"`b`", 30⟩] := by
    decide +kernel
  have hleft : Forms CommandTable.builtin 2 33 true [⟨"min", 16⟩, ⟨"`a`", 20⟩, ⟨"0", 24⟩] :=
    ⟨_, ofTokens_cons_eq_ok_iff.mpr ⟨CommandTable.builtin.commands[3], _, [], [],
      ⟨rfl, by decide, rfl, rfl⟩, .nil, rfl⟩⟩
  have hright : Forms CommandTable.builtin 2 33 true [⟨"max", 26⟩, ⟨"`b`", 30⟩] :=
    ⟨_, ofTokens_cons_eq_ok_iff.mpr ⟨CommandTable.builtin.commands[4], _, [], [],
      ⟨rfl, by decide, rfl, rfl⟩, .nil, rfl⟩⟩
  obtain ⟨left, hleft⟩ := hleft
  obtain ⟨right, hright⟩ := hright
  have h : Forms CommandTable.builtin 2 33 false
      (tokenize "compare dataset min `a` 0 max `b`") := by
    rw [htokens]
    exact ⟨_, ofTokens_cons_eq_ok_iff.mpr ⟨CommandTable.builtin.commands[9], _, _, [left, right],
      ⟨rfl, by decide, rfl, rfl⟩, .cons hleft (.cons hright .nil), rfl⟩⟩
  obtain ⟨q, hq⟩ := h
  have hparse : parse CommandTable.builtin 2 false "compare dataset min `a` 0 max `b`" = .ok q :=
    hq
  exact ⟨q, hparse, tokens_eq_tokenize_of_parse hparse⟩

end Query

end Almanac
