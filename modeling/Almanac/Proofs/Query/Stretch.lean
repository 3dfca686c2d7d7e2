import Almanac.Proofs.Query.Cutting
import Almanac.Proofs.Span
import Almanac.Query.Token.Position

/-!
Tokenizing again from the middle of a line. No quoted run is open where a token starts, so a line
may be entered at any of its tokens and left behind the same or a later one: what is taken out
there has the tokens that the line has there, and no others.
-/

namespace Almanac.Token

variable {line : String} {i j : Nat} {t u : Token} {tokens : List Token}

/-- The line from a token on is the text of the token and what stands behind it. -/
theorem Cut.suffix_eq {line front back : List Char} {xs ys : List Token}
    (h : Cut line front back xs t ys) : t.suffix line = t.text.toList ++ back := by
  rw [suffix, h.line_eq, List.append_assoc, ← h.start_eq, Text.dropWidth_width_append]

/-- Tokens up to a position, the one that stands there, and those behind it. -/
theorem eq_take_append_drop (ht : tokens[i]? = some t) :
    tokens = tokens.take i ++ t :: tokens.drop (i + 1) := by
  obtain ⟨hlt, hat⟩ := List.getElem?_eq_some_iff.mp ht
  rw [← hat, List.getElem_cons_drop, List.take_append_drop]

/-- From the start of a token on, the line has that token and the ones behind it. -/
theorem map_shift_scan_suffix (ht : (tokenize line)[i]? = some t) :
    (scan (t.suffix line.toList)).map (·.shift t.start) = (tokenize line).drop i := by
  obtain ⟨front, back, hcut⟩ := exists_cut (eq_take_append_drop ht)
  obtain ⟨hlt, hat⟩ := List.getElem?_eq_some_iff.mp ht
  rw [hcut.suffix_eq, hcut.rest, List.drop_eq_getElem_cons hlt, hat]
  rfl

/-- The tokens from one position to another start and end with those that stand there. -/
theorem ends_of_drop_take (hij : i ≤ j) (ht : tokens[i]? = some t) (hu : tokens[j]? = some u) :
    ((tokens.take (j + 1)).drop i).head? = some t ∧
      ((tokens.take (j + 1)).drop i).getLast? = some u := by
  obtain ⟨hlt, -⟩ := List.getElem?_eq_some_iff.mp hu
  have hlength : (tokens.take (j + 1)).length = j + 1 := by
    rw [List.length_take]
    omega
  constructor
  · rw [List.head?_drop, List.getElem?_take_of_lt (by omega), ht]
  · have hnone : ¬ j + 1 ≤ i := by omega
    rw [List.getLast?_drop, hlength, if_neg hnone, List.getLast?_eq_getElem?, hlength,
      Nat.add_sub_cancel, List.getElem?_take_of_lt (Nat.lt_succ_self j), hu]

/-- From the start of a token to the end of the same or a later one a line can be cut out, and what
is cut out has the tokens from the one to the other. -/
theorem cuts_and_map_shift_textIn (hij : i ≤ j) (ht : (tokenize line)[i]? = some t)
    (hu : (tokenize line)[j]? = some u) :
    (⟨t.start, u.stop⟩ : Span).Cuts line ∧
      (tokenize ((⟨t.start, u.stop⟩ : Span).textIn line)).map (·.shift t.start) =
        ((tokenize line).take (j + 1)).drop i := by
  obtain ⟨hhead, hlast⟩ := ends_of_drop_take hij ht hu
  have hsplit : scan line.toList = (tokenize line).take i ++
      (((tokenize line).take (j + 1)).drop i ++ (tokenize line).drop (j + 1)) := by
    have hfront : ((tokenize line).take (j + 1)).take i = (tokenize line).take i := by
      rw [List.take_take, Nat.min_eq_left (by omega)]
    rw [← List.append_assoc, ← hfront, List.take_append_drop, List.take_append_drop]
    rfl
  obtain ⟨front, text, back, hline, hstart, hstop, htokens⟩ := exists_stretch hsplit hhead hlast
  refine ⟨Span.cuts_of_split hline hstart hstop, ?_⟩
  rw [Span.textIn_eq hline hstart hstop, tokenize, String.toList_ofList, htokens]

/-- Every token boundary is a place to cut. What stands from the start of a token to the end of the
same or a later one has, as a line by itself, exactly the tokens from the one to the other, and
what stands from the start of a token to the end of the line has exactly that token and those
behind it. Both are moved by where the first token starts. -/
theorem tokenize_between (hij : i ≤ j) (ht : (tokenize line)[i]? = some t)
    (hu : (tokenize line)[j]? = some u) :
    ((⟨t.start, u.stop⟩ : Span).Cuts line ∧
      (tokenize ((⟨t.start, u.stop⟩ : Span).textIn line)).map (·.shift t.start) =
        ((tokenize line).take (j + 1)).drop i) ∧
      (tokenize (String.ofList (t.suffix line.toList))).map (·.shift t.start) =
        (tokenize line).drop i := by
  refine ⟨cuts_and_map_shift_textIn hij ht hu, ?_⟩
  rw [tokenize, String.toList_ofList]
  exact map_shift_scan_suffix ht

/-- Between a run that is closed and one that is left open, and from the latter on. The blanks at
the end of the line belong to the open run. -/
theorem tokenize_between_two_runs :
    (tokenize ((⟨8, 27⟩ : Span).textIn "compare \"é  b\"  min \"c d  ")).map (·.shift 8) =
        [⟨"\"é  b\"", 8⟩, ⟨"min", 17⟩, ⟨"\"c d  ", 21⟩] ∧
      (tokenize (String.ofList
          ((⟨"min", 17⟩ : Token).suffix "compare \"é  b\"  min \"c d  ".toList))).map
        (·.shift 17) = [⟨"min", 17⟩, ⟨"\"c d  ", 21⟩] := by
  have htokens : tokenize "compare \"é  b\"  min \"c d  " =
      [⟨"compare", 0⟩, ⟨"\"é  b\"", 8⟩, ⟨"min", 17⟩, ⟨"\"c d  ", 21⟩] := by
    decide +kernel
  have hstop : (⟨"\"c d  ", 21⟩ : Token).stop = 27 := by decide +kernel
  obtain ⟨⟨-, hbetween⟩, -⟩ := @tokenize_between "compare \"é  b\"  min \"c d  " 1 3
    ⟨"\"é  b\"", 8⟩ ⟨"\"c d  ", 21⟩ (by decide) (by rw [htokens]; rfl) (by rw [htokens]; rfl)
  obtain ⟨-, hsuffix⟩ := @tokenize_between "compare \"é  b\"  min \"c d  " 2 3
    ⟨"min", 17⟩ ⟨"\"c d  ", 21⟩ (by decide) (by rw [htokens]; rfl) (by rw [htokens]; rfl)
  rw [htokens] at hbetween hsuffix
  rw [hstop] at hbetween
  exact ⟨hbetween, hsuffix⟩

end Almanac.Token
