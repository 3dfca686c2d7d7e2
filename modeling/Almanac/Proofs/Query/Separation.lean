import Almanac.Proofs.Query.Cutting
import Almanac.Proofs.Span

/-!
What the tokens of a line are, said of the line and not of the way in which it is cut. Tokens are
texts of the line with blanks between them and around them. A token has a blank in it only when it
starts with a double quote, and then it goes on to the first piece behind the opening one that
ends with a double quote, or to the end of the line. There is one such list of tokens for each
line.
-/

namespace Almanac

namespace Token

def Covers (t : Token) (position : Nat) : Prop := t.start ≤ position ∧ position < t.stop

def StartsQuoted (t : Token) : Prop := t.text.toList.head? = some '"'

def EndsQuoted (t : Token) : Prop := t.text.toList.getLast? = some '"'

/-- A token as a stretch of the pieces that a line has between its blanks, of which only the last
may end with a double quote. -/
structure MadeOf (line : List Char) (t : Token) (before block after : List (List Char)) :
    Prop where
  pieces_eq : Text.pieces (· = ' ') line = before ++ (block ++ after)
  start_eq : t.start = Text.width (Text.ended ' ' before)
  text_eq : t.text.toList = Text.join ' ' block
  ne_nil : block ≠ []
  inner : ∀ piece ∈ block.dropLast, piece.getLast? ≠ some '"'

/-- What makes tokens those of a line. -/
structure Separates (line : String) (tokens : List Token) : Prop where
  nonempty : ∀ t ∈ tokens, t.text ≠ ""
  cuts : ∀ t ∈ tokens, t.span.Cuts line ∧ t.span.textIn line = t.text
  ordered : tokens.Pairwise fun t u => t.stop + 1 ≤ u.start
  /-- A byte outside of all tokens is one of a blank. -/
  blank : ∀ front c back, line.toList = front ++ c :: back → ∀ position,
    Text.width front ≤ position → position < Text.width front + c.utf8Size →
      (∀ t ∈ tokens, ¬t.Covers position) → c = ' '
  quoted : ∀ t ∈ tokens, ' ' ∈ t.text.toList → t.StartsQuoted
  made : ∀ t ∈ tokens, ∃ before block after, t.MadeOf line.toList before block after
  closed : ∀ t ∈ tokens, t.StartsQuoted → t.EndsQuoted ∨ t.stop = Text.byteLength line

/-! The pieces of a token -/

theorem Run.eq_nil_of_extend {run : Run} {ps : List (List Char)}
    (h : (run.extend ps).toToken.text = run.toToken.text) : ps = [] := by
  have htext : run.text ++ ps.flatMap (' ' :: ·) = run.text := by
    simpa [extend, toToken] using congrArg String.toList h
  cases ps with
  | nil => rfl
  | cons p ps => simp at htext

/-- A run that takes some pieces and no others was not closed before the last of them. -/
theorem inner_of_run {run : Run} {start : Nat} {block : List (List Char)}
    (h : ofPieces (some run) start block = [(run.extend block).toToken]) :
    ∀ piece ∈ block.dropLast, endsQuoted piece = false := by
  induction block generalizing run start with
  | nil => simp
  | cons piece rest ih =>
    rw [Run.extend_cons, ofPieces] at h
    by_cases hends : endsQuoted piece = true
    · rw [if_pos hends] at h
      obtain rfl := Run.eq_nil_of_extend (congrArg text (List.cons.inj h).1.symm)
      simp
    · rw [if_neg hends] at h
      have hrest := ih h
      cases rest with
      | nil => simp
      | cons next more =>
        rw [List.dropLast_cons_cons, List.forall_mem_cons]
        exact ⟨by simpa using hends, hrest⟩

/-- A run is open before the last of its pieces, and that one decides whether it stays so. -/
theorem openAfter_concat {init : List (List Char)} (last : List Char)
    (h : ∀ piece ∈ init, endsQuoted piece = false) :
    openAfter true (init ++ [last]) = !endsQuoted last := by
  induction init with
  | nil => simp [openAfter]
  | cons piece rest ih =>
    obtain ⟨hpiece, hrest⟩ := List.forall_mem_cons.mp h
    rw [List.cons_append, openAfter, hpiece]
    exact ih hrest

/-- How the pieces of a token follow one another: more than one of them only behind a quote, and
with a quote at the end of the last one if the token starts with one and pieces follow. -/
structure Shape (first : List Char) (more after : List (List Char)) : Prop where
  first_ne_nil : first ≠ []
  inner : ∀ piece ∈ (first :: more).dropLast, endsQuoted piece = false
  opens : more ≠ [] → first.head? = some '"'
  closes : first.head? = some '"' → (∃ init last, first :: more = init ++ [last] ∧
    endsQuoted last = true) ∨ after = []

theorem Block.exists_shape {start : Nat} {ps before block after : List (List Char)} {t : Token}
    (h : Block start ps before block after t) :
    ∃ first more, block = first :: more ∧ Shape first more after := by
  obtain ⟨first, more, rfl⟩ := List.exists_cons_of_ne_nil h.ne_nil
  refine ⟨first, more, rfl, ?_⟩
  have halone := h.alone
  have htext : t.text = String.ofList (Text.join ' ' (first :: more)) := by
    rw [h.eq]
  rw [ofPieces] at halone
  split at halone
  · -- A token does not start at an empty piece.
    have hlower := (pairwise_ofPieces more (t.start + Text.width first + 1)).1.1 t
      (by rw [halone]; exact List.mem_singleton_self t)
    omega
  · rename_i hne
    have hfirst : first ≠ [] := fun hnil => hne (by rw [hnil]; rfl)
    split at halone
    · rename_i hopens
      have hstarts : first.head? = some '"' := by
        simp only [opensRun, Bool.and_eq_true, decide_eq_true_eq] at hopens
        exact hopens.1
      have hnotEnds : endsQuoted first = false := by
        simp only [opensRun, Bool.and_eq_true, Bool.not_eq_true'] at hopens
        exact hopens.2
      have hrun : t = ((Run.mk first t.start).extend more).toToken := by
        rw [Run.toToken, Run.extend, ← Text.join_cons, ← htext]
      have hinner := inner_of_run (halone.trans (congrArg (fun u => [u]) hrun))
      refine ⟨hfirst, ?_, fun _ => hstarts, fun _ => ?_⟩
      · cases more with
        | nil => simp
        | cons next rest =>
          rw [List.dropLast_cons_cons, List.forall_mem_cons]
          exact ⟨hnotEnds, hinner⟩
      · refine h.closed.imp (fun hclosed => ?_) id
        rw [openAfter, hopens] at hclosed
        rcases List.eq_nil_or_concat more with rfl | ⟨init, last, rfl⟩
        · cases hclosed
        · rw [List.concat_eq_append] at hinner hclosed ⊢
          rw [List.dropLast_concat] at hinner
          refine ⟨first :: init, last, rfl, ?_⟩
          simpa [openAfter_concat last hinner] using hclosed
    · rename_i hopens
      obtain ⟨htoken, -⟩ := List.cons.inj halone
      have hmore : more = [] := by
        refine @Run.eq_nil_of_extend ⟨first, t.start⟩ _ ?_
        rw [Run.toToken, Run.extend, ← Text.join_cons, ← htext, ← htoken]
        rfl
      subst hmore
      refine ⟨hfirst, by simp, by simp, fun hstarts => .inl ⟨[], first, rfl, ?_⟩⟩
      simpa [opensRun, hstarts] using hopens

/-! A line has such tokens -/

theorem exists_madeOf {line : String} {t : Token} (h : t ∈ tokenize line) :
    ∃ before block after, t.MadeOf line.toList before block after ∧ t.text ≠ "" ∧
      (' ' ∈ t.text.toList → t.StartsQuoted) ∧ (t.StartsQuoted → t.EndsQuoted ∨ after = []) := by
  obtain ⟨xs, ys, hsplit⟩ := List.append_of_mem h
  obtain ⟨before, block, after, hb, -, -⟩ := exists_block hsplit
  obtain ⟨first, more, rfl, hshape⟩ := hb.exists_shape
  have hblanks : ∀ p ∈ first :: more, ' ' ∉ p := by
    intro p hp
    have hpiece : p ∈ Text.pieces (· = ' ') line.toList := by
      rw [hb.split]
      exact List.mem_append_right _ (List.mem_append_left _ hp)
    exact not_mem_of_mem_pieces hpiece
  have htext : t.text.toList = Text.join ' ' (first :: more) := by
    rw [hb.eq, String.toList_ofList]
  have hhead : t.text.toList.head? = first.head? := by
    rw [htext, Text.join_cons, List.head?_append_of_ne_nil _ hshape.first_ne_nil]
  refine ⟨before, first :: more, after, ⟨hb.split, ?_, htext, by simp, ?_⟩, ?_, ?_, ?_⟩
  · rw [hb.eq, Nat.zero_add]
  · intro piece hpiece
    simpa [endsQuoted] using hshape.inner piece hpiece
  · intro hempty
    rw [hempty] at hhead
    exact hshape.first_ne_nil (List.head?_eq_none_iff.mp hhead.symm)
  · intro hblank
    obtain ⟨hfirst, hmore⟩ := List.forall_mem_cons.mp hblanks
    rw [htext, Text.mem_join_iff hmore hfirst] at hblank
    exact hhead.trans (hshape.opens hblank)
  · intro hstarts
    refine (hshape.closes (hhead.symm.trans hstarts)).imp (fun hclosed => ?_) id
    obtain ⟨init, last, hblock, hends⟩ := hclosed
    have hlast : last.getLast? = some '"' := by simpa [endsQuoted] using hends
    rw [EndsQuoted, htext, hblock, Text.join_append_cons, Text.join, List.getLast?_append, hlast,
      Option.some_or]

theorem cuts_tokenize {line : String} {t : Token} (h : t ∈ tokenize line) :
    t.span.Cuts line ∧ t.span.textIn line = t.text := by
  obtain ⟨xs, ys, hsplit⟩ := List.append_of_mem h
  obtain ⟨front, back, hcut⟩ := exists_cut hsplit
  have hstop : Text.width (front ++ t.text.toList) = t.span.stop := by
    rw [Text.width_append, hcut.start_eq]
    rfl
  refine ⟨Span.cuts_of_split hcut.line_eq hcut.start_eq hstop, ?_⟩
  rw [Span.textIn_eq hcut.line_eq hcut.start_eq hstop, String.ofList_toList]

/-- A line ends with the pieces behind a token. -/
theorem MadeOf.stop_eq {line : String} {t : Token} {before block after : List (List Char)}
    (h : t.MadeOf line.toList before block after) :
    t.stop + Text.width (Text.ended ' ' after) = Text.byteLength line := by
  have hblank : (' ' : Char).utf8Size = 1 := by decide
  have hline : Text.width (Text.ended ' ' (before ++ (block ++ after))) =
      Text.byteLength line + 1 := by
    rw [← h.pieces_eq, ← Text.join_append_mark ' ' (Text.pieces_ne_nil _ _), Text.join_pieces,
      Text.width_append, Text.width, hblank]
    rfl
  have hblock : Text.width (Text.ended ' ' block) = Text.byteLength t.text + 1 := by
    rw [← Text.join_append_mark ' ' h.ne_nil, ← h.text_eq, Text.width_append, Text.width, hblank]
    rfl
  rw [Text.ended_append, Text.ended_append, Text.width_append, Text.width_append, hblock] at hline
  rw [stop, h.start_eq]
  omega

/-- A character of a line is covered by a token or it is a blank. -/
theorem exists_covered {start : Nat} {ps : List (List Char)} {tokens : List Token}
    (h : ofPieces none start ps = tokens) {front back : List Char} {c : Char} (hc : c ≠ ' ')
    (hsplit : Text.ended ' ' ps = front ++ c :: back) :
    ∃ t ∈ tokens, t.start ≤ start + Text.width front ∧
      start + Text.width front + c.utf8Size ≤ t.stop := by
  have hgap (gap : List (List Char)) (hnone : ∀ p ∈ gap, p = []) (before more : List Char) :
      Text.ended ' ' gap ≠ before ++ c :: more := by
    intro hmore
    have hmem : c ∈ Text.ended ' ' gap := by simp [hmore]
    obtain ⟨p, hp, hcp⟩ := List.mem_flatMap.mp hmem
    rw [hnone p hp, List.nil_append, List.mem_singleton] at hcp
    exact hc hcp
  induction tokens generalizing start ps front with
  | nil => exact absurd hsplit (hgap ps (eq_nil_of_ofPieces_eq_nil h) _ _)
  | cons t ts ih =>
    obtain ⟨gap, block, after, hb, hnone, hrest⟩ := exists_firstBlock h
    have hstart : start + Text.width (Text.ended ' ' gap) = t.start := by rw [hb.eq]
    have hstop : t.stop = t.start + Text.width (Text.join ' ' block) := by
      rw [stop, Text.byteLength, hb.eq, String.toList_ofList]
    rw [hb.split, Text.ended_append, Text.ended_append] at hsplit
    rcases Text.append_eq_append_cons hsplit with ⟨more, hmore⟩ | ⟨inside, rfl, hinside⟩
    · exact absurd hmore (hgap gap (eq_nil_of_ofPieces_eq_nil hnone) _ _)
    rw [Text.width_append]
    rcases Text.append_eq_append_cons hinside with ⟨more, hmore⟩ | ⟨behind, rfl, hbehind⟩
    · rw [← Text.join_append_mark ' ' hb.ne_nil] at hmore
      rcases Text.append_eq_append_cons hmore with ⟨rest, hjoin⟩ | ⟨rest, -, hblank⟩
      · refine ⟨t, List.mem_cons_self, by omega, ?_⟩
        rw [hstop, hjoin, Text.width_append, Text.width]
        omega
      · cases rest with
        | nil => exact absurd (List.cons.inj hblank).1.symm hc
        | cons d rest => simp at hblank
    · obtain ⟨u, hu, hlow, hhigh⟩ := ih hrest hbehind
      rw [Text.width_append]
      exact ⟨u, List.mem_cons_of_mem _ hu, by omega, by omega⟩

theorem blank_of_uncovered {line : String} {front back : List Char} {c : Char}
    (hline : line.toList = front ++ c :: back) {position : Nat}
    (hlow : Text.width front ≤ position) (hhigh : position < Text.width front + c.utf8Size)
    (h : ∀ t ∈ tokenize line, ¬t.Covers position) : c = ' ' := by
  by_contra hc
  have hended : Text.ended ' ' (Text.pieces (· = ' ') line.toList) =
      front ++ c :: (back ++ [' ']) := by
    rw [← Text.join_append_mark ' ' (Text.pieces_ne_nil _ _), Text.join_pieces, hline,
      List.append_assoc, List.cons_append]
  have htokens : ofPieces none 0 (Text.pieces (· = ' ') line.toList) = tokenize line := rfl
  obtain ⟨t, ht, hstart, hstop⟩ := exists_covered htokens hc hended
  exact h t ht ⟨by omega, by omega⟩

theorem separates_tokenize (line : String) : Separates line (tokenize line) where
  nonempty t ht := by
    obtain ⟨_, _, _, -, hne, -⟩ := exists_madeOf ht
    exact hne
  cuts t ht := cuts_tokenize ht
  ordered := pairwise_tokenize line
  blank _ _ _ hline _ hlow hhigh h := blank_of_uncovered hline hlow hhigh h
  quoted t ht := by
    obtain ⟨_, _, _, -, -, hquoted, -⟩ := exists_madeOf ht
    exact hquoted
  made t ht := by
    obtain ⟨before, block, after, hmade, -⟩ := exists_madeOf ht
    exact ⟨before, block, after, hmade⟩
  closed t ht hstarts := by
    obtain ⟨before, block, after, hmade, -, -, hclosed⟩ := exists_madeOf ht
    refine (hclosed hstarts).imp id fun hnil => ?_
    rw [← hmade.stop_eq, hnil]
    rfl

/-! No other tokens are those of the line -/

section Unique

variable {line : String} {common ts us : List Token} {t u : Token}

/-- A token is among any tokens of its line, or one that does not start later than it is. -/
theorem Separates.exists_not_lt (h : Separates line (common ++ t :: ts))
    (hus : Separates line (common ++ us)) : ∃ u ∈ us, u.start ≤ t.start := by
  by_contra hnone
  simp only [not_exists, not_and, Nat.not_le] at hnone
  have ht : t ∈ common ++ t :: ts := by simp
  obtain ⟨c, rest, htext⟩ :=
    List.exists_cons_of_ne_nil fun hnil => h.nonempty t ht (String.toList_eq_nil_iff.mp hnil)
  obtain ⟨⟨front, back, hline, hstart, -⟩, hin⟩ := h.cuts t ht
  rw [hin, htext, List.append_assoc] at hline
  -- The first character of the token lies outside of all other tokens, so it is a blank.
  have hblank : c = ' ' := by
    refine hus.blank front c (rest ++ back) hline t.start (Nat.le_of_eq hstart) ?_ ?_
    · have := c.utf8Size_pos
      rw [hstart]
      exact Nat.lt_add_of_pos_right this
    · intro v hv hcovers
      rcases List.mem_append.mp hv with hv | hv
      · have hbefore := (List.pairwise_append.mp h.ordered).2.2 v hv t (by simp)
        exact absurd hcovers.2 (by omega)
      · exact absurd hcovers.1 (Nat.not_le.mpr (hnone v hv))
  have hquote := h.quoted t ht (by simp [htext, hblank])
  rw [StartsQuoted, htext, hblank] at hquote
  cases hquote

theorem Separates.start_le (hts : Separates line (common ++ t :: ts))
    (hus : Separates line (common ++ u :: us)) : u.start ≤ t.start := by
  obtain ⟨v, hv, hle⟩ := hts.exists_not_lt hus
  rcases List.mem_cons.mp hv with rfl | hv
  · exact hle
  · have hbefore := List.rel_of_pairwise_cons (List.pairwise_append.mp hus.ordered).2.1 hv
    have hstop := u.start_le_stop
    omega

/-- The pieces of a token do not go on behind those of another token with the same start. -/
theorem MadeOf.eq_nil_of_append (hts : Separates line ts) (ht : t ∈ ts) (hus : Separates line us)
    (hu : u ∈ us) {before block more after after' : List (List Char)}
    (hmade : t.MadeOf line.toList before block after)
    (hmade' : u.MadeOf line.toList before (block ++ more) after') : more = [] := by
  by_contra hne
  obtain ⟨init, last, rfl⟩ := (List.eq_nil_or_concat block).resolve_left hmade.ne_nil
  rw [List.concat_eq_append] at hmade hmade'
  have htext : t.text.toList ≠ [] := fun hnil =>
    hts.nonempty t ht (String.toList_eq_nil_iff.mp hnil)
  -- Behind a last piece with a quote, the pieces would have one that is not the last of them.
  have hlast : last.getLast? ≠ some '"' := by
    refine hmade'.inner last ?_
    rw [List.dropLast_append_of_ne_nil hne]
    simp
  have hnotEnds : ¬t.EndsQuoted := by
    intro hends
    rw [EndsQuoted, hmade.text_eq] at hends
    exact hlast (Text.getLast?_of_join (by decide) hends)
  have hjoin : u.text.toList = t.text.toList ++ more.flatMap (' ' :: ·) := by
    obtain ⟨p, ps, hps⟩ := List.exists_cons_of_ne_nil hmade.ne_nil
    rw [hmade.text_eq, hmade'.text_eq, hps, List.cons_append, Text.join_cons, Text.join_cons,
      List.flatMap_append, List.append_assoc]
  have hstarts : t.StartsQuoted := by
    have hblank : ' ' ∈ u.text.toList := by
      obtain ⟨p, hp⟩ := List.exists_mem_of_ne_nil more hne
      rw [hjoin]
      exact List.mem_append_right _ (List.mem_flatMap.mpr ⟨p, hp, List.mem_cons_self⟩)
    have hquote := hus.quoted u hu hblank
    rwa [StartsQuoted, hjoin, List.head?_append_of_ne_nil _ htext] at hquote
  have hend := (hts.closed t ht hstarts).resolve_left hnotEnds
  have hafter : after = more ++ after' := by
    have hpieces := hmade.pieces_eq.symm.trans hmade'.pieces_eq
    simpa using hpieces
  have hstop := hmade.stop_eq
  obtain ⟨p, ps, rfl⟩ := List.exists_cons_of_ne_nil hne
  rw [hafter, List.cons_append, Text.width_ended_cons] at hstop
  omega

theorem Separates.eq_of_start_eq (hts : Separates line ts) (ht : t ∈ ts) (hus : Separates line us)
    (hu : u ∈ us) (hstart : t.start = u.start) : t = u := by
  obtain ⟨before, block, after, hmade⟩ := hts.made t ht
  obtain ⟨before', block', after', hmade'⟩ := hus.made u hu
  have hpieces := hmade.pieces_eq.symm.trans hmade'.pieces_eq
  have hwidth := hmade.start_eq.symm.trans (hstart.trans hmade'.start_eq)
  obtain ⟨rfl, hrest⟩ := Text.eq_of_width_ended hpieces hwidth
  have hblock : block = block' := by
    rcases List.append_eq_append_iff.mp hrest with ⟨more, rfl, -⟩ | ⟨more, rfl, -⟩
    · rw [hmade.eq_nil_of_append hts ht hus hu hmade', List.append_nil]
    · rw [hmade'.eq_nil_of_append hus hu hts ht hmade, List.append_nil]
  have htext : t.text = u.text := by
    rw [← String.toList_inj, hmade.text_eq, hmade'.text_eq, hblock]
  cases t
  cases u
  simp_all

/-- Tokens of one line that start in the same way go on in the same way. -/
theorem Separates.eq_of_append (hts : Separates line (common ++ ts))
    (hus : Separates line (common ++ us)) : ts = us := by
  induction ts generalizing common us with
  | nil =>
    cases us with
    | nil => rfl
    | cons u us =>
      obtain ⟨_, hmem, _⟩ := hus.exists_not_lt hts
      cases hmem
  | cons t ts ih =>
    cases us with
    | nil =>
      obtain ⟨_, hmem, _⟩ := hts.exists_not_lt hus
      cases hmem
    | cons u us =>
      have ht : t ∈ common ++ t :: ts := by simp
      have hu : u ∈ common ++ u :: us := by simp
      have hsame : t = u :=
        hts.eq_of_start_eq ht hus hu (Nat.le_antisymm (hus.start_le hts) (hts.start_le hus))
      subst hsame
      have hts' : Separates line ((common ++ [t]) ++ ts) := by simpa using hts
      have hus' : Separates line ((common ++ [t]) ++ us) := by simpa using hus
      rw [ih hts' hus']

end Unique

/-- The tokens of a line are the only ones that separate it, and a token that starts with a double
quote ends with one when another token follows. -/
theorem separates_iff (line : String) :
    (∀ tokens, Separates line tokens ↔ tokens = tokenize line) ∧
      ∀ xs t u ys, tokenize line = xs ++ t :: u :: ys → t.StartsQuoted → t.EndsQuoted := by
  have hline := separates_tokenize line
  refine ⟨fun tokens => ⟨fun h => ?_, fun h => h ▸ hline⟩, fun xs t u ys h hstarts => ?_⟩
  · exact @Separates.eq_of_append line [] tokens (tokenize line) h hline
  · rw [h] at hline
    refine (hline.closed t (by simp) hstarts).resolve_right fun hstop => ?_
    have hbefore : t.stop + 1 ≤ u.start :=
      List.rel_of_pairwise_cons (List.pairwise_append.mp hline.ordered).2.1 (by simp)
    obtain ⟨⟨front, back, htext, hstart, -⟩, -⟩ := hline.cuts u (by simp)
    have hin : u.start ≤ Text.byteLength line := by
      rw [Text.byteLength, htext, Text.width_append, Text.width_append, hstart, Nat.add_assoc]
      exact Nat.le_add_right _ _
    omega

/-- Of two runs, the first one is closed, and the second one takes the blank at the end of the
line. A quote by itself opens no run. -/
theorem separates_two_runs :
    Separates "\"  \"a b\" \"c d " [⟨"\"", 0⟩, ⟨"\"a b\"", 3⟩, ⟨"\"c d ", 9⟩] ∧
      EndsQuoted ⟨"\"a b\"", 3⟩ := by
  have htokens : tokenize "\"  \"a b\" \"c d " =
      [⟨"\"", 0⟩, ⟨"\"a b\"", 3⟩, ⟨"\"c d ", 9⟩] := by
    decide +kernel
  obtain ⟨hiff, hclosed⟩ := separates_iff "\"  \"a b\" \"c d "
  exact ⟨(hiff _).mpr htokens.symm, hclosed [_] _ _ [] htokens rfl⟩

end Token

end Almanac
