import Almanac.Query.Token

/-!
Where tokens start. Every token of a line starts at the end of some front part of it, and for
every token but the first that part is not empty. So the line from a later token on is shorter
than the line.
-/

namespace Almanac.Token

def StartsIn (t : Token) (start : Nat) (line : List Char) : Prop :=
  ∃ front back, line = front ++ back ∧ t.start = start + Text.width front

def StartsPast (t : Token) (start : Nat) (line : List Char) : Prop :=
  ∃ front back, line = front ++ back ∧ front ≠ [] ∧ t.start = start + Text.width front

theorem StartsPast.startsIn {t : Token} {start : Nat} {line : List Char}
    (h : t.StartsPast start line) : t.StartsIn start line :=
  have ⟨front, back, hline, _, hstart⟩ := h
  ⟨front, back, hline, hstart⟩

theorem StartsIn.past {t : Token} {start : Nat} {piece : List Char} {rest : List (List Char)}
    (h : t.StartsIn (start + Text.width piece + 1) (Text.join ' ' rest)) (hrest : rest ≠ []) :
    t.StartsPast start (Text.join ' ' (piece :: rest)) := by
  obtain ⟨front, back, hline, hstart⟩ := h
  refine ⟨piece ++ ' ' :: front, back, ?_, by simp, ?_⟩
  · cases rest with
    | nil => contradiction
    | cons next more => simp [Text.join, hline]
  · have : (' ' : Char).utf8Size = 1 := by decide
    simp only [Text.width_append, Text.width, hstart]
    omega

/-- An open run becomes the next token. -/
theorem exists_ofPieces_run (run : Run) (start : Nat) (ps : List (List Char)) :
    ∃ first later, ofPieces (some run) start ps = first :: later ∧ first.start = run.start := by
  induction ps generalizing run start with
  | nil => exact ⟨_, _, rfl, rfl⟩
  | cons piece rest ih =>
    simp only [ofPieces]
    split
    · exact ⟨_, _, rfl, rfl⟩
    · exact ih (run.join piece) _

/-- Every token starts in the line, and every one but the first starts past its beginning. -/
theorem startsIn_of_mem_ofPieces (ps : List (List Char)) (start : Nat) :
    (∀ t ∈ ofPieces none start ps, t.StartsIn start (Text.join ' ' ps)) ∧
      (∀ t ∈ (ofPieces none start ps).tail, t.StartsPast start (Text.join ' ' ps)) ∧
      ∀ run, ∀ t ∈ (ofPieces (some run) start ps).tail, t.StartsPast start (Text.join ' ' ps) := by
  induction ps generalizing start with
  | nil => simp [ofPieces]
  | cons piece rest ih =>
    obtain ⟨all, later, joined⟩ := ih (start + Text.width piece + 1)
    have past : ∀ t ∈ ofPieces none (start + Text.width piece + 1) rest,
        t.StartsPast start (Text.join ' ' (piece :: rest)) := fun t ht =>
      (all t ht).past (by rintro rfl; simp [ofPieces] at ht)
    have pastJoined : ∀ run, ∀ t ∈ (ofPieces (some run) (start + Text.width piece + 1) rest).tail,
        t.StartsPast start (Text.join ' ' (piece :: rest)) := fun run t ht =>
      (joined run t ht).startsIn.past (by rintro rfl; simp [ofPieces] at ht)
    have atStart : ∀ t : Token, t.start = start →
        t.StartsIn start (Text.join ' ' (piece :: rest)) := fun t ht =>
      ⟨[], _, rfl, by simp [Text.width, ht]⟩
    refine ⟨?_, ?_, ?_⟩
    · intro t ht
      simp only [ofPieces] at ht
      split at ht
      · exact (past t ht).startsIn
      · split at ht
        · obtain ⟨first, more, hrun, hfirst⟩ :=
            exists_ofPieces_run ⟨piece, start⟩ (start + Text.width piece + 1) rest
          rw [hrun, List.mem_cons] at ht
          rcases ht with rfl | ht
          · exact atStart _ hfirst
          · exact (pastJoined ⟨piece, start⟩ t (by rw [hrun]; exact ht)).startsIn
        · rcases List.mem_cons.1 ht with rfl | ht
          · exact atStart _ rfl
          · exact (past t ht).startsIn
    · intro t ht
      simp only [ofPieces] at ht
      split at ht
      · exact past t (List.mem_of_mem_tail ht)
      · split at ht
        · exact pastJoined _ t ht
        · exact past t ht
    · intro run t ht
      simp only [ofPieces] at ht
      split at ht
      · exact past t ht
      · exact pastJoined _ t ht

def suffix (t : Token) (line : List Char) : List Char := Text.dropWidth t.start line

/-- From any token but the first on, less is left than the line. -/
theorem length_suffix_lt {line : List Char} {t : Token} (h : t ∈ (scan line).tail) :
    (t.suffix line).length < line.length := by
  obtain ⟨front, back, hline, hfront, hstart⟩ := (startsIn_of_mem_ofPieces _ _).2.1 t h
  rw [Text.join_pieces] at hline
  have : 0 < front.length := List.length_pos_iff.2 hfront
  rw [suffix, hstart, Nat.zero_add, hline, Text.dropWidth_width_append, List.length_append]
  omega

end Almanac.Token
