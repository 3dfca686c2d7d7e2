import Almanac.Proofs.Query.Cutting
import Almanac.Proofs.Query.Grammar

/-!
Lines that end within a quoted run. What is written there without a quote becomes part of the run,
so it changes the text of one token and no other. That text starts with a double quote. In a query
it can only be the name of a city, and it stays a name however much is put into it.
-/

namespace Almanac

namespace Text

/-- A separator after a text is one after the last of its pieces. -/
theorem ended_pieces (mark : Char) (cs : List Char) :
    ended mark (pieces (· = mark) cs) = cs ++ [mark] := by
  obtain ⟨init, last, hpieces⟩ :=
    (List.eq_nil_or_concat (pieces (· = mark) cs)).resolve_left (pieces_ne_nil _ _)
  have hjoin := join_pieces mark cs
  rw [hpieces, List.concat_eq_append, join_append_cons] at hjoin
  rw [hpieces, List.concat_eq_append, ended_append, ← hjoin]
  simp [ended, join]

theorem pieces_append_mark (mark : Char) (front back : List Char) :
    pieces (· = mark) (front ++ mark :: back) =
      pieces (· = mark) front ++ pieces (· = mark) back := by
  have hline : front ++ mark :: back = ended mark (pieces (· = mark) front) ++ back := by
    rw [ended_pieces, List.append_assoc, List.singleton_append]
  rw [hline, pieces_ended_append]
  intro p hp hmark
  simpa using not_separates_of_mem_pieces hp mark hmark

end Text

namespace Token

/-- A run that is open after some pieces takes all that follows them. It starts with a quote. -/
theorem ofPieces_append_open (run : Option Run) (start : Nat) (ps : List (List Char))
    (h : openAfter run.isSome ps = true)
    (hquote : ∀ r, run = some r → r.text.head? = some '"') :
    ∃ xs last, last.text.head? = some '"' ∧ ∀ qs, ofPieces run start (ps ++ qs) =
      xs ++ ofPieces (some last) (start + Text.width (Text.ended ' ' ps)) qs := by
  -- The last piece that opens a run is not known in advance, so the run is carried along with the
  -- fact that it starts with a quote.
  fun_induction ofPieces run start ps with
  | case1 => cases h
  | case2 run => exact ⟨[], run, hquote run rfl, fun qs => rfl⟩
  | case3 start piece rest next hempty ih =>
    simp only [List.cons_append, ofPieces, if_pos hempty, Text.add_width_ended_cons]
    rw [List.isEmpty_iff.mp hempty] at h
    exact ih h (by simp)
  | case4 start piece rest next hne hopens ih =>
    simp only [List.cons_append, ofPieces, if_neg hne, if_pos hopens, Text.add_width_ended_cons]
    rw [openAfter_none, hopens] at h
    refine ih h fun r hr => ?_
    obtain rfl := Option.some.inj hr
    simp only [opensRun, Bool.and_eq_true, decide_eq_true_eq] at hopens
    exact hopens.1
  | case5 start piece rest next hne hopens ih =>
    simp only [List.cons_append, ofPieces, if_neg hne, if_neg hopens, Text.add_width_ended_cons]
    rw [openAfter_none, Bool.eq_false_iff.mpr hopens] at h
    obtain ⟨xs, last, hlast, hrest⟩ := ih h (by simp)
    exact ⟨_ :: xs, last, hlast, fun qs => congrArg (List.cons _) (hrest qs)⟩
  | case6 run start piece rest next hends ih =>
    simp only [List.cons_append, ofPieces, if_pos hends, Text.add_width_ended_cons]
    rw [openAfter_some, hends] at h
    obtain ⟨xs, last, hlast, hrest⟩ := ih h (by simp)
    exact ⟨_ :: xs, last, hlast, fun qs => congrArg (List.cons _) (hrest qs)⟩
  | case7 run start piece rest next hends ih =>
    simp only [List.cons_append, ofPieces, if_neg hends, Text.add_width_ended_cons]
    rw [openAfter_some, Bool.eq_false_iff.mpr hends] at h
    refine ih h fun r hr => ?_
    obtain rfl := Option.some.inj hr
    rw [Run.join, List.head?_append, hquote run rfl, Option.some_or]

/-- Pieces that do not end with a quote leave a run open. -/
theorem ofPieces_append_of_not_ends (run : Run) (start : Nat) (ps qs : List (List Char))
    (h : ∀ p ∈ ps, endsQuoted p = false) :
    ofPieces (some run) start (ps ++ qs) =
      ofPieces (some (run.extend ps)) (start + Text.width (Text.ended ' ' ps)) qs := by
  induction ps generalizing run start with
  | nil =>
    simp only [Run.extend, List.flatMap_nil, List.append_nil]
    rfl
  | cons piece rest ih =>
    obtain ⟨hpiece, hrest⟩ := List.forall_mem_cons.mp h
    rw [List.cons_append, ofPieces, if_neg (by simp [hpiece]), ih _ _ hrest, Run.extend_cons,
      Text.add_width_ended_cons]

/-- Text without quotes that is written into an open run goes into the middle of one token, which
starts with a quote. -/
theorem exists_open_token {ps : List (List Char)} (hps : ∀ p ∈ ps, ' ' ∉ p)
    (hopen : openAfter false ps = true) {added : List Char} (hadded : '"' ∉ added)
    (more : List Char) :
    ∃ before opening inside closing after, opening.head? = some '"' ∧ '"' ∉ inside ∧ closing ≠ [] ∧
      (scan (Text.ended ' ' ps ++ more)).map text =
        before ++ String.ofList (opening ++ closing) :: after ∧
      (scan (Text.ended ' ' ps ++ (added ++ [' '] ++ more))).map text =
        before ++ String.ofList (opening ++ inside ++ closing) :: after := by
  obtain ⟨xs, last, hlast, hrun⟩ := ofPieces_append_open none 0 ps hopen (by simp)
  obtain ⟨block, after, hpieces, hclosed, htokens⟩ := exists_runBlock (Text.pieces (· = ' ') more)
  have hblock : block ≠ [] := by
    rintro rfl
    rcases hclosed with hclosed | rfl
    · cases hclosed
    · exact Text.pieces_ne_nil _ _ hpieces
  have hnone : ∀ p ∈ Text.pieces (· = ' ') added, '"' ∉ p := by
    intro p hp hquote
    have hmem : '"' ∈ added ++ [' '] := by
      rw [← Text.ended_pieces]
      exact List.mem_flatMap.mpr ⟨p, hp, List.mem_append_left _ hquote⟩
    simp [hadded] at hmem
  have hends : ∀ p ∈ Text.pieces (· = ' ') added, endsQuoted p = false := by
    intro p hp
    rw [endsQuoted, decide_eq_false_iff_not]
    exact fun hquote => hnone p hp (List.mem_of_getLast? hquote)
  refine ⟨xs.map text, last.text, (Text.pieces (· = ' ') added).flatMap (' ' :: ·),
    block.flatMap (' ' :: ·), (ofPieces none 0 after).map text, hlast, ?_, ?_, ?_, ?_⟩
  · simpa using hnone
  · cases block with
    | nil => exact absurd rfl hblock
    | cons p block => simp
  · rw [scan, Text.pieces_ended_append hps, hrun, (htokens _ _).2, List.map_append, List.map_cons,
      map_text_ofPieces]
    rfl
  · have hblanks : ∀ p ∈ Text.pieces (· = ' ') added, ' ' ∉ p :=
      fun p hp => not_mem_of_mem_pieces hp
    rw [scan, Text.pieces_ended_append hps, ← Text.ended_pieces ' ' added,
      Text.pieces_ended_append hblanks, hrun, ofPieces_append_of_not_ends _ _ _ _ hends,
      (htokens _ _).2, List.map_append, List.map_cons, map_text_ofPieces]
    rfl

end Token

namespace Grammar

open Argument

variable {days : Nat}

/-! Texts that start with a quote -/

def Unquoted (text : String) : Prop := text.toList.head? ≠ some '"'

instance (text : String) : Decidable (Unquoted text) := inferInstanceAs (Decidable (_ ≠ _))

theorem unquoted_of_isRow {text : String} (h : IsRow text) : Unquoted text := by
  rw [Unquoted, h.2.1]
  decide

theorem readFloat?_quote (rest : List Char) : Decimal.readFloat? ('"' :: rest) = none := by
  have hlower : ('"' : Char).toLower = '"' := by decide
  have hdigit : ('"' : Char).isDigit = false := by decide
  simp [Decimal.readFloat?, Decimal.splitSign, Decimal.readWord?, Decimal.readMagnitude?,
    Decimal.splitFraction, hlower, hdigit]

theorem unquoted_of_isNumber {text : String} (h : IsNumber text) : Unquoted text := by
  obtain ⟨x, hread, -⟩ := h
  intro hquote
  obtain ⟨rest, hrest⟩ := List.head?_eq_some_iff.mp hquote
  rw [hrest, readFloat?_quote] at hread
  cases hread

theorem unquoted_of_isDate {text : String} (h : IsDate days text) : Unquoted text := by
  intro hquote
  obtain ⟨rest, hrest⟩ := List.head?_eq_some_iff.mp hquote
  rcases h with ⟨-, place, hread, -⟩ | ⟨-, hiso⟩
  · have hdigit : ('"' : Char).isDigit = false := by decide
    simp [hrest, Decimal.readInteger?, Decimal.splitSign, hdigit] at hread
  · obtain ⟨-, -, first, hfirst, hdigit⟩ := of_isIsoDate hiso
    obtain rfl := Option.some.inj (hquote.symm.trans hfirst)
    cases hdigit

theorem Days.unquoted {texts : List String} (h : Days days texts) :
    ∀ text ∈ texts, Unquoted text := by
  obtain ⟨row, dates, rfl, hrow, -, hdates⟩ := days_iff.mp h
  exact List.forall_mem_cons.mpr
    ⟨unquoted_of_isRow hrow, fun date hdate => unquoted_of_isDate (hdates date hdate)⟩

theorem Sub.unquoted {texts : List String} (h : Sub days texts) :
    ∀ text ∈ texts, Unquoted text := by
  cases h with
  | @aggregate word args hword hargs =>
    have hwords : ∀ word ∈ ["min", "max", "avg"], Unquoted word := by decide
    exact List.forall_mem_cons.mpr ⟨hwords word hword, hargs.unquoted⟩
  | value hrow hday =>
    simp only [List.forall_mem_cons]
    exact ⟨by decide, unquoted_of_isRow hrow, unquoted_of_isDate hday, by simp⟩

/-- The only text of a query that may start with a quote is the name of a city. -/
theorem Top.unquoted_or_city {texts : List String} (h : Top days texts) :
    (∀ text ∈ texts, Unquoted text) ∨
      ∃ name rest, texts = "compare" :: "city" :: name :: rest ∧ IsText name ∧ Sub days rest := by
  cases h with
  | sub hsub => exact .inl hsub.unquoted
  | @plain word hword =>
    have hwords : ∀ word ∈ ["help", "input", "clear", "table"], Unquoted word := by decide
    exact .inl (by simpa using hwords word hword)
  | histogram hargs => exact .inl (List.forall_mem_cons.mpr ⟨by decide, hargs.unquoted⟩)
  | coord hlatitude hlongitude hsub =>
    simp only [List.forall_mem_cons]
    exact .inl ⟨by decide, by decide, unquoted_of_isNumber hlatitude,
      unquoted_of_isNumber hlongitude, hsub.unquoted⟩
  | zip hcode hsub =>
    simp only [List.forall_mem_cons]
    exact .inl ⟨by decide, by decide, unquoted_of_isNumber hcode, hsub.unquoted⟩
  | city hname hsub => exact .inr ⟨_, _, rfl, hname, hsub⟩
  | dataset hfirst hsecond =>
    simp only [List.forall_mem_cons, List.forall_mem_append]
    exact .inl ⟨by decide, by decide, hfirst.unquoted, hsecond.unquoted⟩

/-- A quoted text of a query can be replaced by any text in quotes. -/
theorem Top.replace {before after : List String} {name other : String}
    (h : Top days (before ++ name :: after)) (hquote : ¬ Unquoted name)
    (hother : IsText name → IsText other) : Top days (before ++ other :: after) := by
  have hmem : name ∈ before ++ name :: after := by simp
  rcases h.unquoted_or_city with hall | ⟨city, rest, htexts, hname, hsub⟩
  · exact absurd (hall name hmem) hquote
  · rcases before with _ | ⟨first, _ | ⟨second, _ | ⟨third, before⟩⟩⟩
    all_goals simp only [List.cons_append, List.nil_append, List.cons.injEq] at htexts
    · rw [htexts.1] at hquote
      exact absurd (by decide) hquote
    · rw [htexts.2.1] at hquote
      exact absurd (by decide) hquote
    · obtain ⟨rfl, rfl, rfl, rfl⟩ := htexts
      exact .city (hother hname) hsub
    · have hlater : name ∈ rest := by simp [← htexts.2.2.2]
      exact absurd (hsub.unquoted name hlater) hquote

/-- A text in quotes stays one when more is put into the middle of it. -/
theorem isText_insert {opening inside closing : List Char} (hopening : opening.head? = some '"')
    (hclosing : closing ≠ []) (h : IsText (String.ofList (opening ++ closing))) :
    IsText (String.ofList (opening ++ inside ++ closing)) := by
  obtain ⟨hlength, -, hlast⟩ := h
  rw [String.toList_ofList, List.getLast?_append_of_ne_nil _ hclosing] at hlast
  rw [← String.length_toList, String.toList_ofList, List.length_append] at hlength
  refine ⟨?_, ?_, ?_⟩
  · rw [← String.length_toList, String.toList_ofList]
    simp only [List.length_append]
    omega
  · rw [String.toList_ofList, List.append_assoc, List.head?_append, hopening, Option.some_or]
  · rw [String.toList_ofList, List.getLast?_append_of_ne_nil _ hclosing, hlast]

end Grammar

namespace Query

open CommandTable Token

theorem isValid_ofList_iff {days : Nat} {line : List Char} :
    isValid builtin days false (String.ofList line) = true ↔
      Grammar.Top days ((scan line).map Token.text) := by
  rw [isValid_iff, Grammar.forms_outer_iff, tokenize, String.toList_ofList]

/-- A line that ends within a quoted run may be continued by anything without a quote before it is
continued to a query. -/
theorem isValid_of_open {days : Nat} {ps : List (List Char)} (hps : ∀ p ∈ ps, ' ' ∉ p)
    (hopen : openAfter false ps = true) {added more : List Char} (hadded : '"' ∉ added)
    (h : isValid builtin days false (String.ofList (Text.ended ' ' ps ++ more)) = true) :
    isValid builtin days false
      (String.ofList (Text.ended ' ' ps ++ (added ++ [' '] ++ more))) = true := by
  obtain ⟨before, opening, inside, closing, after, hopening, -, hclosing, htexts, hothers⟩ :=
    exists_open_token hps hopen hadded more
  rw [isValid_ofList_iff, htexts] at h
  rw [isValid_ofList_iff, hothers]
  refine h.replace ?_ (Grammar.isText_insert hopening hclosing)
  rw [Grammar.Unquoted, String.toList_ofList, List.head?_append, hopening, Option.some_or]
  exact not_not_intro rfl

end Query

end Almanac
