import Almanac.Query.Parser
import Mathlib.Data.List.Forall2

/-!
Trees read depth first. The nodes of a tree are the query itself and the nodes of its
sub-queries; the tokens of a tree are its command word, its arguments and the tokens of its
sub-queries, each with the byte at which it stands.
-/

namespace Almanac

def Argument.token (a : Argument) : Token := ⟨a.raw, a.span.start⟩

namespace Query

def head (q : Query) : Token := ⟨q.command, q.span.start⟩

mutual

def nodes : Query → List Query
  | ⟨command, variant, args, subQueries, span⟩ =>
    ⟨command, variant, args, subQueries, span⟩ :: nodesOfAll subQueries

def nodesOfAll : List Query → List Query
  | [] => []
  | q :: rest => nodes q ++ nodesOfAll rest

end

mutual

/-- The tokens that a tree was read from, in the order of the line. -/
def tokens : Query → List Token
  | ⟨command, _, args, subQueries, span⟩ =>
    ⟨command, span.start⟩ :: args.map Argument.token ++ tokensOfAll subQueries

def tokensOfAll : List Query → List Token
  | [] => []
  | q :: rest => tokens q ++ tokensOfAll rest

end

@[elab_as_elim]
theorem induct {motive : Query → Prop}
    (node : ∀ q : Query, (∀ s ∈ q.subQueries, motive s) → motive q) (q : Query) : motive q := by
  refine @Query.rec motive (fun qs => ∀ s ∈ qs, motive s) ?_ ?_ ?_ q
  · intro command variant args subQueries span ih
    exact node ⟨command, variant, args, subQueries, span⟩ ih
  · simp
  · intro first rest hfirst hrest s hs
    rcases List.mem_cons.mp hs with rfl | hs
    · exact hfirst
    · exact hrest s hs

theorem nodesOfAll_eq (qs : List Query) : nodesOfAll qs = qs.flatMap nodes := by
  induction qs with
  | nil => rfl
  | cons q rest ih => rw [nodesOfAll, ih, List.flatMap_cons]

theorem tokensOfAll_eq (qs : List Query) : tokensOfAll qs = qs.flatMap tokens := by
  induction qs with
  | nil => rfl
  | cons q rest ih => rw [tokensOfAll, ih, List.flatMap_cons]

theorem nodes_eq (q : Query) : q.nodes = q :: q.subQueries.flatMap nodes := by
  cases q
  rw [nodes, nodesOfAll_eq]

theorem tokens_eq (q : Query) :
    q.tokens = q.head :: (q.args.map Argument.token ++ q.subQueries.flatMap tokens) := by
  cases q
  rw [tokens, tokensOfAll_eq, List.cons_append]
  rfl

theorem mem_nodes_iff {s q : Query} :
    s ∈ q.nodes ↔ s = q ∨ ∃ sub ∈ q.subQueries, s ∈ sub.nodes := by
  rw [nodes_eq, List.mem_cons, List.mem_flatMap]

theorem head_mem_tokens (q : Query) : q.head ∈ q.tokens := by
  rw [tokens_eq]
  exact List.mem_cons_self

/-- What holds at a node whenever it holds at its sub-queries holds throughout the tree. -/
theorem forall_nodes {P : Query → Prop} {q : Query} (here : P q)
    (below : ∀ sub ∈ q.subQueries, ∀ s ∈ sub.nodes, P s) : ∀ s ∈ q.nodes, P s := by
  intro s hs
  rcases mem_nodes_iff.mp hs with rfl | ⟨sub, hsub, hs⟩
  · exact here
  · exact below sub hsub s hs

/-- The tokens of a node stand together among those of the tree. -/
theorem tokens_infix_of_mem_nodes {s q : Query} (h : s ∈ q.nodes) : s.tokens <:+: q.tokens := by
  induction q using induct with
  | node q ih =>
    rcases mem_nodes_iff.mp h with rfl | ⟨sub, hsub, hs⟩
    · exact List.infix_refl _
    · obtain ⟨before, after, hsplit⟩ := List.append_of_mem hsub
      have hinfix : sub.tokens <:+: q.tokens := by
        refine ⟨q.head :: (q.args.map Argument.token ++ before.flatMap tokens),
          after.flatMap tokens, ?_⟩
        simp only [tokens_eq q, hsplit, List.flatMap_append, List.flatMap_cons, List.cons_append,
          List.append_assoc]
      exact (ih sub hsub hs).trans hinfix

end Query

end Almanac
