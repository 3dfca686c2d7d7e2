import Almanac.Proofs.Query.Token
import Almanac.Proofs.Text.Pieces

/-!
Cutting a line between its tokens. A token is made of a block of the pieces between blanks, and
after each block but the last no quoted run is open. So a line may be cut before any token and
behind any token: each part has the tokens that the line has there, moved by where the part
starts.
-/

namespace Almanac.Token

def shift (t : Token) (offset : Nat) : Token := ⟨t.text, offset + t.start⟩

@[simp] theorem text_shift (t : Token) (offset : Nat) : (t.shift offset).text = t.text := rfl

@[simp] theorem start_shift (t : Token) (offset : Nat) :
    (t.shift offset).start = offset + t.start := rfl

@[simp] theorem stop_shift (t : Token) (offset : Nat) :
    (t.shift offset).stop = offset + t.stop := Nat.add_assoc ..

def Run.shift (run : Run) (offset : Nat) : Run := ⟨run.text, offset + run.start⟩

theorem ofPieces_shift (run : Option Run) (start offset : Nat) (ps : List (List Char)) :
    ofPieces (run.map (·.shift offset)) (offset + start) ps =
      (ofPieces run start ps).map (·.shift offset) := by
  induction ps generalizing run start with
  | nil => cases run <;> rfl
  | cons piece rest ih =>
    have hnext : offset + start + Text.width piece + 1 =
        offset + (start + Text.width piece + 1) := by
      omega
    cases run with
    | none =>
      simp only [Option.map_none, ofPieces, hnext]
      split
      · exact ih none _
      · split
        · exact ih (some ⟨piece, start⟩) _
        · exact congrArg (List.cons _) (ih none _)
    | some run =>
      simp only [Option.map_some, ofPieces, hnext]
      split
      · exact congrArg (List.cons _) (ih none _)
      · exact ih (some (run.join piece)) _

/-- Where pieces start does not matter for the texts of their tokens. -/
theorem map_text_ofPieces (start : Nat) (ps : List (List Char)) :
    (ofPieces none start ps).map text = (ofPieces none 0 ps).map text := by
  have hshift := ofPieces_shift none 0 start ps
  rw [Option.map_none, Nat.add_zero] at hshift
  rw [hshift, List.map_map]
  rfl

def openAfter : Bool → List (List Char) → Bool
  | opened, [] => opened
  | opened, piece :: rest =>
    openAfter (if opened then !endsQuoted piece else opensRun piece) rest

theorem openAfter_append (opened : Bool) (ps qs : List (List Char)) :
    openAfter opened (ps ++ qs) = openAfter (openAfter opened ps) qs := by
  induction ps generalizing opened with
  | nil => rfl
  | cons piece rest ih => exact ih _

theorem openAfter_none (piece : List Char) (rest : List (List Char)) :
    openAfter (none : Option Run).isSome (piece :: rest) = openAfter (opensRun piece) rest := rfl

theorem openAfter_some (run : Run) (piece : List Char) (rest : List (List Char)) :
    openAfter (some run).isSome (piece :: rest) = openAfter (!endsQuoted piece) rest := rfl

/-- Where no run is open, the pieces that follow are cut as if nothing stood before them. -/
theorem ofPieces_append (run : Option Run) (start : Nat) (ps qs : List (List Char))
    (h : openAfter run.isSome ps = false) :
    ofPieces run start (ps ++ qs) =
      ofPieces run start ps ++ ofPieces none (start + Text.width (Text.ended ' ' ps)) qs := by
  fun_induction ofPieces run start ps with
  | case1 => rfl
  | case2 run => cases h
  | case3 start piece rest next hempty ih =>
    rw [List.cons_append, ofPieces, if_pos hempty, Text.add_width_ended_cons]
    rw [List.isEmpty_iff.mp hempty] at h
    exact ih h
  | case4 start piece rest next hne hopens ih =>
    rw [openAfter_none, hopens] at h
    rw [List.cons_append, ofPieces, if_neg hne, if_pos hopens, Text.add_width_ended_cons]
    exact ih h
  | case5 start piece rest next hne hopens ih =>
    rw [openAfter_none, Bool.eq_false_iff.mpr hopens] at h
    rw [List.cons_append, ofPieces, if_neg hne, if_neg hopens, Text.add_width_ended_cons]
    exact congrArg (List.cons _) (ih h)
  | case6 run start piece rest next hends ih =>
    rw [openAfter_some, hends] at h
    rw [List.cons_append, ofPieces, if_pos hends, Text.add_width_ended_cons]
    exact congrArg (List.cons _) (ih h)
  | case7 run start piece rest next hends ih =>
    rw [openAfter_some, Bool.eq_false_iff.mpr hends] at h
    rw [List.cons_append, ofPieces, if_neg hends, Text.add_width_ended_cons]
    exact ih h

/-! The block of pieces that a token is made of -/

def Run.extend (run : Run) (ps : List (List Char)) : Run :=
  ⟨run.text ++ ps.flatMap (' ' :: ·), run.start⟩

theorem Run.extend_cons (run : Run) (piece : List Char) (ps : List (List Char)) :
    run.extend (piece :: ps) = (run.join piece).extend ps := by
  simp [extend, join]

/-- An open run takes a block of the pieces after it, whatever its text is, and is closed behind
them if more pieces follow. -/
theorem exists_runBlock (ps : List (List Char)) :
    ∃ block after, ps = block ++ after ∧ (openAfter true block = false ∨ after = []) ∧
      ∀ run start, ofPieces (some run) start block = [(run.extend block).toToken] ∧
        ofPieces (some run) start ps = (run.extend block).toToken ::
          ofPieces none (start + Text.width (Text.ended ' ' block)) after := by
  induction ps with
  | nil => exact ⟨[], [], rfl, .inr rfl, fun run start => by simp [ofPieces, Run.extend]⟩
  | cons piece rest ih =>
    by_cases hends : endsQuoted piece = true
    · refine ⟨[piece], rest, rfl, .inl ?_, fun run start => ?_⟩
      · simp [openAfter, hends]
      · have hnext : start + Text.width (Text.ended ' ' [piece]) =
            start + Text.width piece + 1 := by
          rw [Text.width_ended_cons, Text.ended, List.flatMap_nil, Text.width]
          omega
        simp only [ofPieces, hends, if_true, hnext, Run.extend_cons]
        simp [Run.extend]
    · obtain ⟨block, after, rfl, hclosed, htokens⟩ := ih
      refine ⟨piece :: block, after, rfl, ?_, fun run start => ?_⟩
      · simpa [openAfter, hends] using hclosed
      · obtain ⟨hblock, hall⟩ := htokens (run.join piece) (start + Text.width piece + 1)
        simp only [Run.extend_cons, Text.add_width_ended_cons, ofPieces, if_neg hends]
        exact ⟨hblock, hall⟩

/-- Pieces without tokens are empty. -/
theorem eq_nil_of_ofPieces_eq_nil {start : Nat} {ps : List (List Char)}
    (h : ofPieces none start ps = []) : ∀ p ∈ ps, p = [] := by
  induction ps generalizing start with
  | nil => simp
  | cons piece rest ih =>
    simp only [ofPieces] at h
    split at h
    · rename_i hempty
      exact List.forall_mem_cons.mpr ⟨List.isEmpty_iff.mp hempty, ih h⟩
    · split at h
      · obtain ⟨block, after, -, -, htokens⟩ := exists_runBlock rest
        rw [(htokens _ _).2] at h
        cases h
      · cases h

/-- A token among those of some pieces, the first of which starts at the given byte: the pieces
before it, the block that it is made of, and the pieces after it. -/
structure Block (start : Nat) (ps before block after : List (List Char)) (t : Token) : Prop where
  split : ps = before ++ (block ++ after)
  settled : openAfter false before = false
  ne_nil : block ≠ []
  closed : openAfter false block = false ∨ after = []
  eq : t = ⟨String.ofList (Text.join ' ' block), start + Text.width (Text.ended ' ' before)⟩
  alone : ofPieces none t.start block = [t]

theorem exists_firstBlock {start : Nat} {ps : List (List Char)} {t : Token} {ts : List Token}
    (h : ofPieces none start ps = t :: ts) :
    ∃ gap block after, Block start ps gap block after t ∧ ofPieces none start gap = [] ∧
      ofPieces none (t.start + Text.width (Text.ended ' ' block)) after = ts := by
  induction ps generalizing start with
  | nil => simp [ofPieces] at h
  | cons piece rest ih =>
    simp only [ofPieces] at h
    split at h
    · rename_i hempty
      obtain rfl : piece = [] := List.isEmpty_iff.mp hempty
      obtain ⟨gap, block, after, hb, hgap, hafter⟩ := ih h
      refine ⟨[] :: gap, block, after, ⟨?_, ?_, hb.ne_nil, hb.closed, ?_, hb.alone⟩, ?_, hafter⟩
      · exact congrArg (List.cons []) hb.split
      · exact hb.settled
      · rw [Text.add_width_ended_cons]
        exact hb.eq
      · exact hgap
    · rename_i hne
      split at h
      · rename_i hopens
        obtain ⟨block, after, rfl, hclosed, htokens⟩ := exists_runBlock rest
        obtain ⟨hblock, hall⟩ := htokens ⟨piece, start⟩ (start + Text.width piece + 1)
        rw [hall, List.cons.injEq] at h
        obtain ⟨rfl, hafter⟩ := h
        have hstart : ((Run.mk piece start).extend block).toToken.start = start := rfl
        refine ⟨[], piece :: block, after, ⟨rfl, rfl, by simp, ?_, ?_, ?_⟩, rfl, ?_⟩
        · simpa [openAfter, hopens] using hclosed
        · rw [Text.join_cons]
          rfl
        · rw [hstart, ofPieces, if_neg hne, if_pos hopens]
          exact hblock
        · rw [hstart, Text.add_width_ended_cons]
          exact hafter
      · rename_i hopens
        obtain ⟨rfl, hafter⟩ := List.cons.inj h
        refine ⟨[], [piece], rest, ⟨rfl, rfl, by simp, .inl ?_, rfl, ?_⟩, rfl, ?_⟩
        · simpa [openAfter] using hopens
        · simp [ofPieces, hne, hopens]
        · rw [Text.width_ended_cons, ← hafter]
          rfl

theorem exists_block {start : Nat} {ps : List (List Char)} {xs ys : List Token} {t : Token}
    (h : ofPieces none start ps = xs ++ t :: ys) :
    ∃ before block after, Block start ps before block after t ∧
      ofPieces none start before = xs ∧
      ofPieces none (t.start + Text.width (Text.ended ' ' block)) after = ys := by
  induction xs generalizing start ps with
  | nil => exact exists_firstBlock h
  | cons x xs ih =>
    obtain ⟨gap, first, rest, hfirst, hgap, hrest⟩ := exists_firstBlock h
    obtain ⟨before, block, after, hb, hbefore, hafter⟩ := ih hrest
    -- More tokens follow the first one, so its block leaves no run open.
    have hne : rest ≠ [] := by
      rw [hb.split]
      simp [hb.ne_nil]
    have hclosed : openAfter false first = false := hfirst.closed.resolve_right hne
    have hfirstStart : start + Text.width (Text.ended ' ' gap) = x.start := by
      rw [hfirst.eq]
    have hwidth : start + Text.width (Text.ended ' ' (gap ++ (first ++ before))) =
        x.start + Text.width (Text.ended ' ' first) + Text.width (Text.ended ' ' before) := by
      rw [← hfirstStart]
      simp only [Text.ended_append, Text.width_append]
      omega
    refine ⟨gap ++ (first ++ before), block, after,
      ⟨?_, ?_, hb.ne_nil, hb.closed, ?_, hb.alone⟩, ?_, hafter⟩
    · rw [hfirst.split, hb.split]
      simp only [List.append_assoc]
    · rw [openAfter_append, openAfter_append, hfirst.settled, hclosed, hb.settled]
    · rw [hwidth]
      exact hb.eq
    · rw [ofPieces_append none start gap _ hfirst.settled, hgap, List.nil_append, hfirstStart,
        ofPieces_append none _ first _ hclosed, hfirst.alone, hbefore, List.singleton_append]

/-! Parts of a line -/

/-- The line is empty or ends with a blank outside of quoted runs: what comes next is a new
token. -/
def Settled (line : List Char) : Prop :=
  ∃ ps, (∀ p ∈ ps, ' ' ∉ p) ∧ line = Text.ended ' ' ps ∧ openAfter false ps = false

theorem not_mem_of_mem_pieces {line p : List Char} (h : p ∈ Text.pieces (· = ' ') line) :
    ' ' ∉ p := by
  intro hblank
  simpa using Text.not_separates_of_mem_pieces h ' ' hblank

theorem scan_ended {ps : List (List Char)} (hps : ∀ p ∈ ps, ' ' ∉ p)
    (hclosed : openAfter false ps = false) : scan (Text.ended ' ' ps) = ofPieces none 0 ps := by
  have hpieces := Text.pieces_ended_append hps []
  rw [List.append_nil] at hpieces
  rw [scan, hpieces, ofPieces_append none 0 ps _ hclosed]
  simp [Text.pieces, ofPieces]

/-- What follows a settled line is cut as if nothing stood before it. -/
theorem scan_append {front : List Char} (h : Settled front) (back : List Char) :
    scan (front ++ back) = scan front ++ (scan back).map (·.shift (Text.width front)) := by
  obtain ⟨ps, hps, rfl, hclosed⟩ := h
  rw [scan_ended hps hclosed, scan, Text.pieces_ended_append hps,
    ofPieces_append none 0 ps _ hclosed, scan, ← ofPieces_shift, Option.map_none, Nat.zero_add,
    Nat.add_zero]

theorem map_text_scan_append {front : List Char} (h : Settled front) (back : List Char) :
    (scan (front ++ back)).map text = (scan front).map text ++ (scan back).map text := by
  rw [scan_append h, List.map_append, List.map_map]
  rfl

/-- A line taken apart at one of its tokens: what stands before and behind the token, and the
tokens that each part of the line has. -/
structure Cut (line front back : List Char) (xs : List Token) (t : Token) (ys : List Token) :
    Prop where
  line_eq : line = front ++ t.text.toList ++ back
  settled : Settled front
  start_eq : Text.width front = t.start
  before : scan front = xs
  through : scan (front ++ t.text.toList) = xs ++ [t]
  rest : (scan (t.text.toList ++ back)).map (·.shift t.start) = t :: ys
  back_eq : back = [] ∨ ∃ more, back = ' ' :: more
  trailing : ys = [] → ∀ c ∈ back, c = ' '

/-- A line can be taken apart at every token. -/
theorem exists_cut {line : List Char} {xs ys : List Token} {t : Token}
    (h : scan line = xs ++ t :: ys) : ∃ front back, Cut line front back xs t ys := by
  obtain ⟨before, block, after, hb, hbefore, hafter⟩ := exists_block h
  have hblanks : ∀ p ∈ before ++ (block ++ after), ' ' ∉ p := by
    rw [← hb.split]
    exact fun p hp => not_mem_of_mem_pieces hp
  have hfront : ∀ p ∈ before, ' ' ∉ p := fun p hp => hblanks p (by simp [hp])
  have hblock : ∀ p ∈ block, ' ' ∉ p := fun p hp => hblanks p (by simp [hp])
  have hrest : ∀ p ∈ block ++ after, ' ' ∉ p := fun p hp => hblanks p (by simp [hp])
  have hstart : Text.width (Text.ended ' ' before) = t.start := by
    rw [hb.eq, Nat.zero_add]
  have htext : t.text.toList = Text.join ' ' block := by
    rw [hb.eq, String.toList_ofList]
  obtain ⟨first, more, rfl⟩ := List.exists_cons_of_ne_nil hb.ne_nil
  have hjoin : Text.join ' ' (first :: more ++ after) =
      Text.join ' ' (first :: more) ++ after.flatMap (' ' :: ·) := by
    rw [List.cons_append, Text.join_cons, Text.join_cons, List.flatMap_append, List.append_assoc]
  refine ⟨Text.ended ' ' before, after.flatMap (' ' :: ·), ?_, ⟨before, hfront, rfl, hb.settled⟩,
    hstart, ?_, ?_, ?_, ?_, ?_⟩
  · rw [htext, List.append_assoc, ← hjoin, List.cons_append, ← Text.join_append_cons,
      ← List.cons_append, ← hb.split, Text.join_pieces]
  · rw [scan_ended hfront hb.settled, hbefore]
  · rw [scan, htext, Text.pieces_ended_append hfront, Text.pieces_join hb.ne_nil hblock,
      ofPieces_append none 0 before _ hb.settled, hbefore, Nat.zero_add, hstart, hb.alone]
  · rw [scan, htext, ← hjoin, Text.pieces_join (by simp) hrest, ← ofPieces_shift,
      Option.map_none, Nat.add_zero]
    rcases hb.closed with hclosed | rfl
    · rw [ofPieces_append none t.start _ _ hclosed, hb.alone, hafter, List.singleton_append]
    · rw [List.append_nil, hb.alone, ← hafter]
      rfl
  · cases after with
    | nil => exact .inl rfl
    | cons p ps => exact .inr ⟨_, rfl⟩
  · intro hnone c hc
    obtain ⟨p, hp, hc⟩ := List.mem_flatMap.mp hc
    rw [eq_nil_of_ofPieces_eq_nil (hafter.trans hnone) p hp] at hc
    exact List.mem_singleton.mp hc

/-- The text of a token is a token by itself. -/
theorem Cut.scan_text {line front back : List Char} {xs ys : List Token} {t : Token}
    (h : Cut line front back xs t ys) : scan t.text.toList = [⟨t.text, 0⟩] := by
  have hthrough := h.through
  rw [scan_append h.settled, h.before, List.append_cancel_left_eq,
    List.map_eq_singleton_iff] at hthrough
  obtain ⟨u, hscan, hshift⟩ := hthrough
  have hstart : Text.width front + u.start = t.start := congrArg Token.start hshift
  have hzero : u.start = 0 := by
    have := h.start_eq
    omega
  rw [hscan, ← hshift, text_shift, ← hzero]

/-- Without a separator at its end, a line ends with its last token. -/
theorem exists_lastCut {line : List Char} {xs : List Token} {last : Token}
    (h : scan line = xs ++ [last]) (hopen : endsWithSeparator line = false) :
    ∃ front, Cut line front [] xs last [] := by
  obtain ⟨front, back, hcut⟩ := exists_cut h
  have hback : back = [] := by
    by_contra hne
    have hlast : back.getLast? = some ' ' := by
      rw [List.getLast?_eq_some_getLast hne]
      exact congrArg some (hcut.trailing rfl _ (List.getLast_mem hne))
    have hblank : line.getLast? = some ' ' := by
      rw [hcut.line_eq, List.getLast?_append, hlast, Option.some_or]
    simp [endsWithSeparator, hblank] at hopen
  subst hback
  exact ⟨front, hcut⟩

/-- The part of a line from the start of a token to the end of the same or a later one has just
the tokens that the line has there. -/
theorem exists_stretch {line : List Char} {xs stretch ys : List Token}
    (h : scan line = xs ++ (stretch ++ ys)) {first last : Token}
    (hfirst : stretch.head? = some first) (hlast : stretch.getLast? = some last) :
    ∃ front text back, line = front ++ text ++ back ∧ Text.width front = first.start ∧
      Text.width (front ++ text) = last.stop ∧
      (scan text).map (·.shift first.start) = stretch := by
  obtain ⟨more, rfl⟩ := List.head?_eq_some_iff.mp hfirst
  obtain ⟨front, back, hcut⟩ : ∃ front back, Cut line front back xs first (more ++ ys) :=
    exists_cut h
  have hmoved : (scan (first.text.toList ++ back)).map (·.shift first.start) =
      (first :: more) ++ ys := hcut.rest
  obtain ⟨ts, us, hsplit, hts, -⟩ := List.map_eq_append_iff.mp hmoved
  obtain ⟨_, hinit⟩ := List.getLast?_eq_some_iff.mp hlast
  obtain ⟨init, finals, rfl, -, hfinals⟩ := List.map_eq_append_iff.mp (hts.trans hinit)
  obtain ⟨final, rfl, rfl⟩ := List.map_eq_singleton_iff.mp hfinals
  rw [List.append_assoc, List.singleton_append] at hsplit
  obtain ⟨before, behind, hend⟩ := exists_cut hsplit
  refine ⟨front, before ++ final.text.toList, behind, ?_, hcut.start_eq, ?_, ?_⟩
  · rw [hcut.line_eq, List.append_assoc, hend.line_eq, ← List.append_assoc]
  · rw [Text.width_append, Text.width_append, hcut.start_eq, hend.start_eq, stop_shift]
    rfl
  · rw [hend.through, hts]

end Almanac.Token
