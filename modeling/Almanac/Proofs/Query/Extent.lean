import Almanac.Proofs.Query.Cutting
import Almanac.Proofs.Query.Parsing
import Almanac.Proofs.Query.Tree
import Almanac.Proofs.Span

/-!
Nothing that is read from a line lies beyond its end: neither a token, nor a query and what it is
made of, nor what is wrong with the line.
-/

namespace Almanac

structure Span.Within (n : Nat) (s : Span) : Prop where
  start : s.start ≤ n
  stop : s.stop ≤ n

theorem Span.Within.cover {n : Nat} {s t : Span} (hs : s.Within n) (ht : t.Within n) :
    (s.cover t).Within n := by
  refine ⟨?_, ?_⟩
  · show (if s.start ≤ t.start then s.start else t.start) ≤ n
    split
    · exact hs.start
    · exact ht.start
  · show (if s.stop ≤ t.stop then t.stop else s.stop) ≤ n
    split
    · exact ht.stop
    · exact hs.stop

theorem Span.Within.storable {n : Nat} {s : Span} (h : s.Within n) (hn : n < Json.wordLimit) :
    s.Storable := ⟨Nat.lt_of_le_of_lt h.start hn, Nat.lt_of_le_of_lt h.stop hn⟩

theorem Span.within_empty {n position : Nat} (h : position ≤ n) :
    (Span.empty position).Within n := ⟨h, h⟩

/-- A token of a line lies in it. -/
theorem Token.within_of_mem_tokenize {line : String} {t : Token} (h : t ∈ tokenize line) :
    t.span.Within (Text.byteLength line) := by
  obtain ⟨xs, ys, hsplit⟩ := List.append_of_mem h
  obtain ⟨front, back, hcut⟩ := exists_cut hsplit
  have hline : Text.byteLength line = t.start + Text.byteLength t.text + Text.width back := by
    rw [Text.byteLength, hcut.line_eq, Text.width_append, Text.width_append, hcut.start_eq]
    rfl
  refine ⟨?_, ?_⟩
  · show t.start ≤ _
    omega
  · show t.start + Text.byteLength t.text ≤ _
    omega

namespace Query

variable {table : CommandTable} {days lineLength n : Nat} {nested : Bool}

theorem within_runSpan {head : Token} {tail : List Token}
    (h : ∀ t ∈ head :: tail, t.span.Within n) : (runSpan head tail).Within n := by
  have hlast : tail.getLast?.getD head ∈ head :: tail := by
    cases hlast : tail.getLast? with
    | none => exact List.mem_cons_self
    | some last => exact List.mem_cons_of_mem _ (List.mem_of_getLast? hlast)
  exact (h head List.mem_cons_self).cover (h _ hlast)

theorem within_unresolved {head : Token} {tail : List Token}
    (h : ∀ t ∈ head :: tail, t.span.Within n) :
    (unresolved table nested head tail.head?).span.Within n := by
  have hhead := h head List.mem_cons_self
  unfold unresolved
  split
  · split
    · exact hhead
    · exact hhead
  · cases tail with
    | nil => exact hhead
    | cons next more => exact hhead.cover (h next (by simp))

theorem within_tooMany {c : Command} {tail : List Token} (h : ∀ t ∈ tail, t.span.Within n) :
    (tooMany c nested tail).span.Within n := by
  unfold tooMany
  dsimp only
  split
  · exact Span.within_empty (Nat.zero_le n)
  · rename_i first more hrest
    refine within_runSpan fun t ht => h t ?_
    rw [← hrest] at ht
    exact List.mem_of_mem_drop ht

/-- Runs are stretches of the tokens that they are divided from, and none of them is empty. -/
theorem infix_of_mem_divide {c : Command} {stop : Nat} {tail run : List Token}
    (h : run ∈ (divide table c nested stop tail).runs) : run <:+: tail ∧ run ≠ [] := by
  have hdrop : tail.drop c.positional.length <:+: tail := (List.drop_suffix _ _).isInfix
  unfold divide divideInTwo at h
  dsimp only at h
  split at h
  · cases h
  · split at h
    · cases h
    · rename_i hrest
      obtain rfl := List.mem_singleton.mp h
      exact ⟨hdrop, by simpa using hrest⟩
  · split at h
    · split at h
      · cases h
      · rename_i hrest
        obtain rfl := List.mem_singleton.mp h
        exact ⟨hdrop, by simpa using hrest⟩
    · cases h
    · rename_i i hstart
      have hlt : i + 1 < (tail.drop c.positional.length).length := lastIndex?_lt hstart
      rcases List.mem_cons.mp h with rfl | h
      · refine ⟨(List.take_prefix _ _).isInfix.trans hdrop, List.ne_nil_of_length_pos ?_⟩
        rw [List.length_take]
        omega
      · obtain rfl := List.mem_singleton.mp h
        refine ⟨(List.drop_suffix _ _).isInfix.trans hdrop, List.ne_nil_of_length_pos ?_⟩
        rw [List.length_drop]
        omega

/-- A division is at fault for the tokens that are too many, or where a sub-query is missing. -/
theorem fault_divide {c : Command} {stop : Nat} {tail : List Token} {fault : Fault}
    (h : (divide table c nested stop tail).fault = some fault) :
    c.params.length < tail.length ∧ fault = tooMany c nested tail ∨
      ∃ param, fault = missing c param nested stop := by
  unfold divide divideInTwo at h
  dsimp only at h
  split at h
  · split at h
    · rename_i hmany
      exact .inl ⟨hmany, (Option.some.inj h).symm⟩
    · cases h
  · split at h
    · exact .inr ⟨_, (Option.some.inj h).symm⟩
    · cases h
  · split at h
    · split at h
      · exact .inr ⟨_, (Option.some.inj h).symm⟩
      · exact .inr ⟨_, (Option.some.inj h).symm⟩
    · exact .inr ⟨_, (Option.some.inj h).symm⟩
    · cases h

theorem within_divide {c : Command} {stop : Nat} {tail : List Token} (hstop : stop ≤ n)
    (h : ∀ t ∈ tail, t.span.Within n) :
    ∀ fault ∈ (divide table c nested stop tail).fault, fault.span.Within n := by
  intro fault hfault
  rcases fault_divide hfault with ⟨_, rfl⟩ | ⟨param, rfl⟩
  · exact within_tooMany h
  · exact Span.within_empty hstop

theorem within_bindAll {command : String} {params : List Param} {tokens : List Token}
    (h : ∀ t ∈ tokens, t.span.Within n) {fault : Fault}
    (hbound : Argument.bindAll days command nested params tokens = .error fault) :
    fault.span.Within n := by
  rw [Argument.bindAll_eq_mapM] at hbound
  obtain ⟨⟨param, token⟩, hmem, hfault⟩ := exists_of_mapM_eq_error hbound
  unfold Argument.bind at hfault
  split at hfault
  · cases hfault
  · obtain rfl := Except.error.inj hfault
    exact h token (List.of_mem_zip hmem).2

def AllWithin (n : Nat) (q : Query) : Prop := ∀ s ∈ q.nodes, s.span.Within n

/-- What is read from tokens lies where they lie, and so does what is wrong with them. -/
theorem within_ofTokens (hline : lineLength ≤ n) (tokens : List Token)
    (h : ∀ t ∈ tokens, t.span.Within n) :
    Yields (fun fault => fault.span.Within n) (AllWithin n)
      (ofTokens table days lineLength nested tokens) := by
  induction nested, tokens using tokens_induct table with
  | nil nested =>
    simp only [ofTokens]
    exact Span.within_empty hline
  | cons nested head tail ih =>
    have hspan := within_runSpan h
    have htail := (List.forall_mem_cons.mp h).2
    rw [ofTokens_cons]
    cases table.resolve head.text (tail.head?.map Token.text) nested with
    | none => exact within_unresolved h
    | some c =>
      simp only
      split
      · exact hspan
      · have hruns : ∀ run ∈ (divide table c nested (runSpan head tail).stop tail).runs,
            Yields (fun fault => fault.span.Within n) (AllWithin n)
              (ofTokens table days lineLength true run) := fun run hrun =>
          ih c _ run hrun fun t ht => htail t ((infix_of_mem_divide hrun).1.subset ht)
        refine (Yields.mapM hruns).bind fun subQueries hsubs => ?_
        refine Yields.bind (R := fun _ => True) ?_ fun _ _ => ?_
        · cases hdivided : (divide table c nested (runSpan head tail).stop tail).fault with
          | none => trivial
          | some fault => exact within_divide hspan.stop htail fault hdivided
        cases hbound : Argument.bindAll days c.name nested c.positional tail with
        | error fault => exact within_bindAll htail hbound
        | ok args => exact forall_nodes hspan hsubs

theorem within_parse (table : CommandTable) (days : Nat) (nested : Bool) (line : String) :
    Yields (fun fault => fault.span.Within (Text.byteLength line))
      (AllWithin (Text.byteLength line)) (parse table days nested line) :=
  within_ofTokens (Nat.le_refl _) (tokenize line) fun _ => Token.within_of_mem_tokenize

end Query

end Almanac
