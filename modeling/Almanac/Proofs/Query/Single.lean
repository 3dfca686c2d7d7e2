import Almanac.Proofs.Query.OpenQuote
import Mathlib.Data.List.Infix

/-!
Texts that are one token. Such a text may have blanks only behind a double quote at its start, and
then no blank may follow another double quote, since that would end the token. The texts of tokens
are just these. Two of them with a blank between them are two tokens, unless the first one is a
quoted run that is still open.
-/

namespace Almanac

namespace Text

/-- A character stands before the mark if it is the last one of a piece that is not the last. -/
theorem infix_iff_getLast?_pieces {c mark : Char} (hc : c ≠ mark) (cs : List Char) :
    [c, mark] <:+: cs ↔ ∃ p ∈ (pieces (· = mark) cs).dropLast, p.getLast? = some c := by
  constructor
  · rintro ⟨front, back, rfl⟩
    obtain ⟨init, last, hpieces⟩ :=
      (List.eq_nil_or_concat (pieces (· = mark) (front ++ [c]))).resolve_left (pieces_ne_nil _ _)
    rw [List.concat_eq_append] at hpieces
    have hlast : last.getLast? = some c := by
      refine @getLast?_of_join mark init last c hc ?_
      rw [← hpieces, join_pieces, List.getLast?_concat]
    have hsplit : front ++ [c, mark] ++ back = front ++ [c] ++ mark :: back := by simp
    rw [hsplit, pieces_append_mark, List.dropLast_append_of_ne_nil (pieces_ne_nil _ _), hpieces]
    exact ⟨last, by simp, hlast⟩
  · rintro ⟨p, hp, hlast⟩
    obtain ⟨init, last, hpieces⟩ :=
      (List.eq_nil_or_concat (pieces (· = mark) cs)).resolve_left (pieces_ne_nil _ _)
    rw [hpieces, List.concat_eq_append, List.dropLast_concat] at hp
    obtain ⟨before, after, rfl⟩ := List.append_of_mem hp
    obtain ⟨front, rfl⟩ := List.getLast?_eq_some_iff.mp hlast
    obtain ⟨q, qs, hrest⟩ : ∃ q qs, after ++ [last] = q :: qs :=
      List.exists_cons_of_ne_nil (by simp)
    have hsplit : pieces (· = mark) cs = before ++ (front ++ [c]) :: q :: qs := by
      rw [hpieces, ← hrest]
      simp
    refine ⟨ended mark before ++ front, join mark (q :: qs), ?_⟩
    rw [← join_pieces mark cs, hsplit, join_append_cons]
    simp [join]

end Text

namespace Token

/-- The text has no blanks, or it starts with a quote and no blank follows a later one. -/
def IsSingle (text : String) : Prop :=
  text ≠ "" ∧ (' ' ∈ text.toList →
    text.toList.head? = some '"' ∧ ¬['"', ' '] <:+: text.toList)

instance (text : String) : Decidable (IsSingle text) :=
  inferInstanceAs (Decidable (_ ∧ (_ → _ ∧ _)))

theorem isSingle_of_scan {text : String} (h : scan text.toList = [⟨text, 0⟩]) : IsSingle text := by
  obtain ⟨before, block, after, hmade, hne, hblank, -⟩ :=
    @exists_madeOf text ⟨text, 0⟩ (by rw [tokenize, h]; exact List.mem_singleton_self _)
  refine ⟨hne, fun hmem => ⟨hblank hmem, ?_⟩⟩
  have hblock : Text.pieces (· = ' ') text.toList = block := by
    refine (congrArg _ hmade.text_eq).trans (Text.pieces_join hmade.ne_nil fun p hp => ?_)
    refine @not_mem_of_mem_pieces text.toList p ?_
    rw [hmade.pieces_eq]
    simp [hp]
  rw [Text.infix_iff_getLast?_pieces (by decide), hblock]
  rintro ⟨p, hp, hlast⟩
  exact hmade.inner p hp hlast

/-- An open run takes pieces that do not end with a quote and one more. -/
theorem ofPieces_of_not_ends (run : Run) (start : Nat) {ps : List (List Char)}
    (hne : ps ≠ []) (h : ∀ p ∈ ps.dropLast, endsQuoted p = false) :
    ofPieces (some run) start ps = [(run.extend ps).toToken] := by
  obtain ⟨init, last, rfl⟩ := (List.eq_nil_or_concat ps).resolve_left hne
  rw [List.concat_eq_append, List.dropLast_concat] at h
  have hjoin : (run.extend init).join last = run.extend (init ++ [last]) := by
    simp [Run.join, Run.extend]
  rw [List.concat_eq_append, ofPieces_append_of_not_ends run start init [last] h, ofPieces, hjoin]
  split <;> rfl

/-- With a blank in it the text starts a run, which no piece but the last can close. -/
theorem IsSingle.opens {text : String} (h : IsSingle text) {first next : List Char}
    {rest : List (List Char)}
    (hpieces : Text.pieces (· = ' ') text.toList = first :: next :: rest) :
    opensRun first = true ∧ ∀ p ∈ (next :: rest).dropLast, endsQuoted p = false := by
  have htext : text.toList = first ++ (next :: rest).flatMap (' ' :: ·) := by
    rw [← Text.join_cons, ← hpieces, Text.join_pieces]
  obtain ⟨hquote, hinfix⟩ := h.2 (by simp [htext])
  rw [Text.infix_iff_getLast?_pieces (by decide), hpieces] at hinfix
  have hends : ∀ p ∈ (first :: next :: rest).dropLast, endsQuoted p = false := by
    intro p hp
    rw [endsQuoted, decide_eq_false_iff_not]
    exact fun hlast => hinfix ⟨p, hp, hlast⟩
  rw [List.dropLast_cons_cons, List.forall_mem_cons] at hends
  have hstarts : first.head? = some '"' := by
    rw [htext] at hquote
    cases first with
    | nil => simp at hquote
    | cons c first => exact hquote
  exact ⟨by simp [opensRun, hstarts, hends.1], hends.2⟩

theorem IsSingle.scan_eq {text : String} (h : IsSingle text) : scan text.toList = [⟨text, 0⟩] := by
  obtain ⟨first, more, hpieces⟩ := List.exists_cons_of_ne_nil
    (Text.pieces_ne_nil (· = ' ') text.toList)
  have htext : Text.join ' ' (first :: more) = text.toList := by
    rw [← hpieces, Text.join_pieces]
  cases more with
  | nil =>
    have hfirst : first = text.toList := htext
    have hempty : first.isEmpty = false := by simpa [hfirst] using h.1
    rw [scan, hpieces, ofPieces, hempty, hfirst]
    simp [ofPieces, Run.toToken]
  | cons next rest =>
    obtain ⟨hopens, hends⟩ := h.opens hpieces
    have hempty : first.isEmpty = false := by
      cases first with
      | nil => cases hopens
      | cons c first => rfl
    rw [scan, hpieces, ofPieces, hempty, hopens, if_neg Bool.false_ne_true, if_pos rfl,
      ofPieces_of_not_ends _ _ (List.cons_ne_nil _ _) hends, Run.toToken, Run.extend,
      ← Text.join_cons, htext, String.ofList_toList]

theorem scan_eq_singleton_iff {text : String} : scan text.toList = [⟨text, 0⟩] ↔ IsSingle text :=
  ⟨isSingle_of_scan, IsSingle.scan_eq⟩

theorem isSingle_of_mem {line : List Char} {t : Token} (h : t ∈ scan line) : IsSingle t.text := by
  obtain ⟨xs, ys, hsplit⟩ := List.append_of_mem h
  obtain ⟨front, back, hcut⟩ := exists_cut hsplit
  exact scan_eq_singleton_iff.mp hcut.scan_text

/-- Of the tokens before a settled end none is a run that is still open. -/
theorem Settled.not_unclosed {front : List Char} (h : Settled front) :
    ∀ t ∈ scan front, ¬t.Unclosed := by
  obtain ⟨ps, hps, rfl, hclosed⟩ := h
  have hcount := countP_unclosed_ofPieces none 0 ps (by simp)
  rw [Option.isSome_none, hclosed, ← scan_ended hps hclosed] at hcount
  simpa [List.countP_eq_zero] using hcount

theorem unclosed_iff (t : Token) : t.Unclosed ↔ opensRun t.text.toList = true := by
  rw [← unclosed_iff_opensRun _ t.start, String.ofList_toList]

/-- A token that another one follows opens no run. -/
theorem opensRun_of_scan {line : List Char} {t u : Token} {ts : List Token}
    (h : scan line = t :: u :: ts) : opensRun t.text.toList = false := by
  obtain ⟨front, back, hcut⟩ : ∃ front back, Cut line front back [t] u ts :=
    exists_cut h
  have hclosed := hcut.settled.not_unclosed t (by simp [hcut.before])
  rwa [unclosed_iff, Bool.not_eq_true] at hclosed

/-- Two single texts are two tokens if the first one leaves no run open. -/
theorem tokenize_pair {first second : String} (hfirst : IsSingle first)
    (hclosed : opensRun first.toList = false) (hsecond : IsSingle second) :
    tokenize (first ++ " " ++ second) =
      [⟨first, 0⟩, ⟨second, Text.width (first.toList ++ [' '])⟩] := by
  have hopen : openAfter false (Text.pieces (· = ' ') first.toList) = false := by
    have hnot : ¬EndsInRun first.toList := by
      rw [endsInRun_iff_unclosed, hfirst.scan_eq]
      simpa [unclosed_iff] using hclosed
    simpa [EndsInRun] using hnot
  have hsettled : Settled (first.toList ++ [' ']) :=
    ⟨_, fun p hp => not_mem_of_mem_pieces hp, (Text.ended_pieces ' ' _).symm, hopen⟩
  have hfront : scan (first.toList ++ [' ']) = [⟨first, 0⟩] := by
    rw [← Text.ended_pieces, scan_ended (fun p hp => not_mem_of_mem_pieces hp) hopen]
    exact hfirst.scan_eq
  rw [tokenize, String.toList_append, String.toList_append]
  refine (scan_append hsettled second.toList).trans ?_
  rw [hfront, hsecond.scan_eq]
  rfl

end Token

end Almanac
