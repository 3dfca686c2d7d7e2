import Almanac.Proofs.Query.OpenRun
import Almanac.Proofs.Query.Separation
import Mathlib.Algebra.Ring.Parity

/-!
Whether a line ends within a quoted run, as its tokens have it and as its double quotes have it.
For the tokens, a quote opens or closes a run only where a piece between blanks starts or ends, so
the line ends within a run if its last token starts with a quote and does not end with one. The
other way is to count the quotes of the line, wherever they stand. The two agree as long as the
quotes that neither open nor close a run come in pairs.
-/

namespace Almanac

namespace Token

instance (t : Token) : Decidable t.StartsQuoted := inferInstanceAs (Decidable (_ = _))

instance (t : Token) : Decidable t.EndsQuoted := inferInstanceAs (Decidable (_ = _))

/-! The quotes of the tokens are those of the line -/

/-- Tokens lose nothing but blanks. -/
theorem sum_count_ofPieces {mark : Char} (hmark : mark ≠ ' ') (run : Option Run) (start : Nat)
    (ps : List (List Char)) :
    ((ofPieces run start ps).map fun t => t.text.toList.count mark).sum =
      (run.elim [] Run.text).count mark + (ps.map (List.count mark)).sum := by
  have hjoin (run : Run) (piece : List Char) :
      (run.join piece).text.count mark = run.text.count mark + piece.count mark := by
    simp [Run.join, hmark.symm]
  fun_induction ofPieces run start ps with
  | case1 => simp
  | case2 run => simp [Run.toToken]
  | case3 start piece rest next hempty ih => simp [ih, List.isEmpty_iff.mp hempty]
  | case4 start piece rest next hne hopens ih => simp [ih]
  | case5 start piece rest next hne hopens ih => simp [ih]
  | case6 run start piece rest next hends ih => simp [ih, Run.toToken, hjoin, Nat.add_assoc]
  | case7 run start piece rest next hends ih => simp [ih, hjoin, Nat.add_assoc]

theorem count_join {mark : Char} (hmark : mark ≠ ' ') (ps : List (List Char)) :
    (Text.join ' ' ps).count mark = (ps.map (List.count mark)).sum := by
  cases ps with
  | nil => rfl
  | cons p ps =>
    rw [Text.join_cons, List.count_append, List.map_cons, List.sum_cons, List.count_flatMap]
    congr 3
    funext q
    simp [hmark.symm]

theorem sum_count_scan {mark : Char} (hmark : mark ≠ ' ') (line : List Char) :
    ((scan line).map fun t => t.text.toList.count mark).sum = line.count mark := by
  rw [scan, sum_count_ofPieces hmark, ← count_join hmark, Text.join_pieces]
  simp

/-! The run that a line ends in -/

def EndsInRun (line : List Char) : Prop :=
  openAfter false (Text.pieces (· = ' ') line) = true

instance (line : List Char) : Decidable (EndsInRun line) := inferInstanceAs (Decidable (_ = _))

/-- The token opens a quoted run and does not close it. -/
def Unclosed (t : Token) : Prop := t.StartsQuoted ∧ ¬t.EndsQuoted

instance (t : Token) : Decidable t.Unclosed := inferInstanceAs (Decidable (_ ∧ _))

theorem unclosed_iff_opensRun (piece : List Char) (start : Nat) :
    (Token.mk (String.ofList piece) start).Unclosed ↔ opensRun piece = true := by
  simp [Unclosed, StartsQuoted, EndsQuoted, opensRun, endsQuoted]

/-- A run that is open stays so until a piece ends with a quote. -/
theorem Run.unclosed_join {run : Run} (h : run.toToken.Unclosed) (piece : List Char) :
    (run.join piece).toToken.Unclosed ↔ endsQuoted piece = false := by
  have hstarts : (run.join piece).toToken.StartsQuoted := by
    have hrun := h.1
    simp only [StartsQuoted, Run.toToken, String.toList_ofList] at hrun
    simp [StartsQuoted, Run.toToken, Run.join, hrun]
  have hends : (run.join piece).toToken.EndsQuoted ↔ endsQuoted piece = true := by
    cases piece using List.reverseRecOn with
    | nil => simp [EndsQuoted, Run.toToken, Run.join, endsQuoted]
    | append_singleton piece last =>
      rw [EndsQuoted, Run.toToken, Run.join, String.toList_ofList, ← List.cons_append,
        ← List.append_assoc, List.getLast?_concat, endsQuoted, List.getLast?_concat,
        decide_eq_true_iff]
  rw [Unclosed, and_iff_right hstarts, hends, Bool.not_eq_true]

/-- One token is unclosed if a run is open behind the pieces, and otherwise none is. -/
theorem countP_unclosed_ofPieces (run : Option Run) (start : Nat) (ps : List (List Char))
    (h : ∀ r, run = some r → r.toToken.Unclosed) :
    (ofPieces run start ps).countP (·.Unclosed) = (openAfter run.isSome ps).toNat := by
  fun_induction ofPieces run start ps with
  | case1 => rfl
  | case2 run => simp [openAfter, h run rfl]
  | case3 start piece rest next hempty ih =>
    rw [ih (by simp), List.isEmpty_iff.mp hempty]
    rfl
  | case4 start piece rest next hne hopens ih =>
    rw [ih, openAfter_none, hopens]
    · rfl
    · intro r hr
      obtain rfl := Option.some.inj hr
      exact (unclosed_iff_opensRun piece start).mpr hopens
  | case5 start piece rest next hne hopens ih =>
    have hclosed : ¬(Token.mk (String.ofList piece) start).Unclosed :=
      mt (unclosed_iff_opensRun piece start).mp hopens
    rw [List.countP_cons_of_neg (by simpa using hclosed), ih (by simp), openAfter_none,
      Bool.eq_false_iff.mpr hopens]
    rfl
  | case6 run start piece rest next hends ih =>
    have hclosed : ¬(run.join piece).toToken.Unclosed := by
      simp [Run.unclosed_join (h run rfl), hends]
    rw [List.countP_cons_of_neg (by simpa using hclosed), ih (by simp), openAfter_some, hends]
    rfl
  | case7 run start piece rest next hends ih =>
    rw [ih, openAfter_some, Bool.eq_false_iff.mpr hends]
    · rfl
    · intro r hr
      obtain rfl := Option.some.inj hr
      exact (Run.unclosed_join (h run rfl) piece).mpr (Bool.eq_false_iff.mpr hends)

theorem countP_unclosed_scan (line : List Char) :
    (scan line).countP (·.Unclosed) =
      (openAfter false (Text.pieces (· = ' ') line)).toNat :=
  countP_unclosed_ofPieces none 0 _ (by simp)

theorem endsInRun_iff_unclosed (line : List Char) :
    EndsInRun line ↔ ∃ t ∈ scan line, t.Unclosed := by
  have hcount := countP_unclosed_scan line
  rw [EndsInRun]
  cases hopen : openAfter false (Text.pieces (· = ' ') line) with
  | false => simpa [hopen, List.countP_eq_zero] using hcount
  | true =>
    have hpos : 0 < (scan line).countP (·.Unclosed) := by simp [hcount, hopen]
    simpa [List.countP_pos_iff] using hpos

/-! Writing on behind a line -/

theorem pieces_append_x (line : List Char) :
    Text.pieces (· = ' ') (line ++ [' ', 'x']) = Text.pieces (· = ' ') line ++ [['x']] :=
  Text.pieces_append_mark ' ' line ['x']

theorem EndsInRun.tokenize_append {line : String} (h : EndsInRun line.toList) :
    ∃ ts t, tokenize line = ts ++ [t] ∧
      tokenize (line ++ " x") = ts ++ [⟨t.text ++ " x", t.start⟩] := by
  obtain ⟨xs, last, -, hrun⟩ := ofPieces_append_open none 0 _ h (by simp)
  refine ⟨xs, last.toToken, ?_, ?_⟩
  · simpa [tokenize, scan, ofPieces] using hrun []
  · have htokens := hrun [['x']]
    rw [← pieces_append_x] at htokens
    have hjoin : (last.join ['x']).toToken = ⟨last.toToken.text ++ " x", last.start⟩ := by
      rw [Run.toToken, Run.join, Run.toToken, String.ofList_append]
    rw [tokenize, String.toList_append, scan]
    exact htokens.trans (congrArg (xs ++ [·]) hjoin)

theorem tokenize_append_of_not_endsInRun {line : String} (h : ¬EndsInRun line.toList) :
    tokenize (line ++ " x") = tokenize line ++ [⟨"x", Text.byteLength line + 1⟩] := by
  have hblank : (' ' : Char).utf8Size = 1 := by decide
  have hend : Text.width (Text.ended ' ' (Text.pieces (· = ' ') line.toList)) =
      Text.byteLength line + 1 := by
    rw [Text.ended_pieces, Text.width_append, Text.width, hblank]
    rfl
  rw [tokenize, String.toList_append, scan]
  refine (congrArg _ (pieces_append_x _)).trans ?_
  rw [ofPieces_append none 0 _ _ (Bool.eq_false_iff.mpr h), Nat.zero_add, hend]
  rfl

/-! Counting quotes -/

/-- The number of quotes of the token is odd just when one of them opens a run that stays open. -/
def Paired (t : Token) : Prop := Odd (t.text.toList.count '"') ↔ t.Unclosed

instance (t : Token) : Decidable t.Paired := inferInstanceAs (Decidable (_ ↔ _))

theorem countP_not_paired_mod_two (ts : List Token) :
    ts.countP (¬·.Paired) % 2 =
      ((ts.map fun t => t.text.toList.count '"').sum + ts.countP (·.Unclosed)) % 2 := by
  induction ts with
  | nil => rfl
  | cons t ts ih =>
    have hself : (if ¬t.Paired then 1 else 0) % 2 =
        (t.text.toList.count '"' + if t.Unclosed then 1 else 0) % 2 := by
      by_cases hunclosed : t.Unclosed <;>
        rcases Nat.mod_two_eq_zero_or_one (t.text.toList.count '"') with hcount | hcount <;>
          simp [Paired, hunclosed, Nat.odd_iff, hcount, Nat.add_mod]
    rw [List.countP_cons, List.countP_cons, List.map_cons, List.sum_cons]
    simp only [decide_eq_true_eq]
    omega

/-- The token has no quotes but one at its start, or one at its start and one at its end. -/
def Delimited (t : Token) : Prop :=
  '"' ∉ (t.text.toList.drop 1).dropLast ∧
    (t.EndsQuoted → t.StartsQuoted ∧ t.text.toList ≠ ['"'])

instance (t : Token) : Decidable t.Delimited := inferInstanceAs (Decidable (_ ∧ _))

theorem Delimited.paired {t : Token} (h : t.Delimited) : t.Paired := by
  obtain ⟨hinner, hends⟩ := h
  rw [EndsQuoted, StartsQuoted] at hends
  rw [Paired, Unclosed, StartsQuoted, EndsQuoted]
  generalize t.text.toList = cs at hinner hends
  cases cs with
  | nil => decide
  | cons first rest =>
    cases rest using List.reverseRecOn with
    | nil =>
      have hfirst : first ≠ '"' := fun heq => (hends (by simp [heq])).2 (by rw [heq])
      simp [hfirst]
    | append_singleton inner last =>
      rw [List.drop_succ_cons, List.drop_zero, List.dropLast_concat] at hinner
      rw [← List.cons_append, List.getLast?_concat, List.cons_append, List.head?_cons,
        Option.some.injEq, Option.some.injEq] at hends
      rw [← List.cons_append, List.getLast?_concat, List.cons_append, List.head?_cons,
        List.count_cons, List.count_append, List.count_singleton, List.count_eq_zero.mpr hinner]
      by_cases hlast : last = '"'
      · simp [hlast, (hends hlast).1]
      · by_cases hfirst : first = '"' <;> simp [hfirst, hlast]

/-- A line ends within a quoted run just when what is written on behind a blank goes into its last
token and begins no new one. The number of its quotes tells so if and only if the tokens in which
the quotes are not paired come in pairs themselves, so it does if quotes only start and end
tokens. -/
theorem hasOpenQuote_iff_endsInRun (line : String) :
    (EndsInRun line.toList ↔ ∃ ts t, tokenize line = ts ++ [t] ∧
        tokenize (line ++ " x") = ts ++ [⟨t.text ++ " x", t.start⟩]) ∧
      (¬EndsInRun line.toList ↔
        tokenize (line ++ " x") = tokenize line ++ [⟨"x", Text.byteLength line + 1⟩]) ∧
      (EndsInRun line.toList ↔ ∃ t ∈ tokenize line, t.Unclosed) ∧
      ((hasOpenQuote line.toList = true ↔ EndsInRun line.toList) ↔
        Even ((tokenize line).countP (¬·.Paired))) ∧
      ((∀ t ∈ tokenize line, t.Delimited) →
        (hasOpenQuote line.toList = true ↔ EndsInRun line.toList)) := by
  have hparity : (hasOpenQuote line.toList = true ↔ EndsInRun line.toList) ↔
      Even ((tokenize line).countP (¬·.Paired)) := by
    rw [Nat.even_iff, countP_not_paired_mod_two, tokenize, sum_count_scan (by decide),
      countP_unclosed_scan, hasOpenQuote, EndsInRun, decide_eq_true_iff]
    cases openAfter false (Text.pieces (· = ' ') line.toList) with
    | false =>
      simp only [Bool.toNat_false, Bool.false_eq_true, iff_false]
      omega
    | true =>
      simp only [Bool.toNat_true, iff_true]
      omega
  -- The tokens of the longer line are as many as those of the line, or one more than them.
  have hexclusive : ¬((∃ ts t, tokenize line = ts ++ [t] ∧
      tokenize (line ++ " x") = ts ++ [⟨t.text ++ " x", t.start⟩]) ∧
        tokenize (line ++ " x") = tokenize line ++ [⟨"x", Text.byteLength line + 1⟩]) := by
    rintro ⟨⟨ts, t, hline, hmore⟩, hnew⟩
    have hlength := congrArg List.length (hmore.symm.trans (hline ▸ hnew))
    simp at hlength
  refine ⟨⟨EndsInRun.tokenize_append, fun hgoes => ?_⟩,
    ⟨tokenize_append_of_not_endsInRun, fun hnew hend => ?_⟩,
    endsInRun_iff_unclosed _, hparity, fun hdelimited => ?_⟩
  · by_contra hend
    exact hexclusive ⟨hgoes, tokenize_append_of_not_endsInRun hend⟩
  · exact hexclusive ⟨hend.tokenize_append, hnew⟩
  · rw [hparity, List.countP_eq_zero.mpr]
    · exact Even.zero
    · intro t ht
      simpa using (hdelimited t ht).paired

/-- A quote within a token neither opens a run nor closes one, with or without a blank behind the
token. -/
theorem not_hasOpenQuote_iff_endsInRun :
    (∀ line ∈ ["min `a\"b` ", "min `a\"b`"],
        hasOpenQuote line.toList = true ∧ ¬EndsInRun line.toList ∧
          tokenize (line ++ " x") = tokenize line ++ [⟨"x", Text.byteLength line + 1⟩]) ∧
      hasOpenQuote "city \"a\"b".toList = false ∧ EndsInRun "city \"a\"b".toList ∧
        tokenize ("city \"a\"b" ++ " x") = [⟨"city", 0⟩, ⟨"\"a\"b x", 5⟩] := by
  decide +kernel

theorem hasOpenQuote_iff_endsInRun_city :
    (∀ t ∈ tokenize "compare city \"Kansas City\" min \"a ", t.Delimited) ∧
      (hasOpenQuote "compare city \"Kansas City\" min \"a ".toList = true ↔
        EndsInRun "compare city \"Kansas City\" min \"a ".toList) := by
  have hdelimited : ∀ t ∈ tokenize "compare city \"Kansas City\" min \"a ", t.Delimited := by
    decide +kernel
  exact ⟨hdelimited, (hasOpenQuote_iff_endsInRun _).2.2.2.2 hdelimited⟩

end Token

end Almanac
