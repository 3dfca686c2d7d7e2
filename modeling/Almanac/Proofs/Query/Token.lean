import Almanac.Query.Token
import Mathlib.Tactic.Common

/-!
The order of the tokens of a line. Each token ends before the next one starts, with at least the
blank between them, so a stretch of tokens takes the bytes from its first to its last.
-/

namespace Almanac.Token

def Before (t u : Token) : Prop := t.stop < u.start

theorem start_le_stop (t : Token) : t.start ≤ t.stop := Nat.le_add_right _ _

theorem stop_ofList (cs : List Char) (start : Nat) :
    (⟨String.ofList cs, start⟩ : Token).stop = start + Text.width cs := by
  rw [stop, Text.byteLength, String.toList_ofList]

theorem Run.stop_toToken (run : Run) : run.toToken.stop = run.start + Text.width run.text :=
  stop_ofList run.text run.start

theorem Run.width_join (run : Run) (piece : List Char) :
    Text.width (run.join piece).text = Text.width run.text + 1 + Text.width piece := by
  have hblank : (' ' : Char).utf8Size = 1 := by decide
  simp only [Run.join, Text.width_append, Text.width, hblank]
  omega

/-- Tokens are in order, and none starts before the first piece, or before an open run that
ended one byte before it. -/
theorem pairwise_ofPieces (ps : List (List Char)) (start : Nat) :
    ((∀ t ∈ ofPieces none start ps, start ≤ t.start) ∧
        (ofPieces none start ps).Pairwise Before) ∧
      ∀ run : Run, run.start + Text.width run.text + 1 = start →
        (∀ t ∈ ofPieces (some run) start ps, run.start ≤ t.start) ∧
          (ofPieces (some run) start ps).Pairwise Before := by
  induction ps generalizing start with
  | nil => simp [ofPieces, Run.toToken]
  | cons piece rest ih =>
    obtain ⟨⟨hlower, hordered⟩, hopen⟩ := ih (start + Text.width piece + 1)
    constructor
    · simp only [ofPieces]
      split
      · exact ⟨fun t ht => by have := hlower t ht; omega, hordered⟩
      · split
        · exact hopen ⟨piece, start⟩ rfl
        · simp only [List.forall_mem_cons, List.pairwise_cons, Before, stop_ofList]
          exact ⟨⟨Nat.le_refl _, fun t ht => by have := hlower t ht; omega⟩,
            fun t ht => by have := hlower t ht; omega, hordered⟩
    · intro run hrun
      have hjoin := run.width_join piece
      simp only [ofPieces]
      split
      · have hstop := (run.join piece).stop_toToken
        have hstart : (run.join piece).toToken.start = run.start := rfl
        have hstart' : (run.join piece).start = run.start := rfl
        simp only [List.forall_mem_cons, List.pairwise_cons, Before]
        exact ⟨⟨by omega, fun t ht => by have := hlower t ht; omega⟩,
          fun t ht => by have := hlower t ht; omega, hordered⟩
      · refine hopen (run.join piece) ?_
        have hstart : (run.join piece).start = run.start := rfl
        omega

theorem pairwise_tokenize (line : String) : (tokenize line).Pairwise Before :=
  (pairwise_ofPieces _ 0).1.2

/-- The last of some ordered tokens ends last. -/
theorem stop_le_of_getLast? {tokens : List Token} (h : tokens.Pairwise Before) {last : Token}
    (hlast : tokens.getLast? = some last) : ∀ t ∈ tokens, t.stop ≤ last.stop := by
  obtain ⟨before, rfl⟩ := List.getLast?_eq_some_iff.mp hlast
  intro t ht
  rcases List.mem_append.mp ht with ht | ht
  · have hlt := (List.pairwise_append.mp h).2.2 t ht last (by simp)
    exact Nat.le_of_lt (Nat.lt_of_lt_of_le hlt last.start_le_stop)
  · obtain rfl := List.mem_singleton.mp ht
    exact Nat.le_refl _

end Almanac.Token
