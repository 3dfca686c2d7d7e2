import Almanac.Text.Pieces
import Mathlib.Data.List.DropRight

/-!
Cutting undoes joining. Words with a blank before each of them are the words of what they make,
and lines with a line feed after each of them are its lines. In the other direction, what was cut
at a separator has none of it, and what was trimmed does not change when it is trimmed again.
-/

namespace Almanac.Text

variable {separates : Char → Bool} {cs front : List Char}

theorem pieces_cons_of_not {c : Char} (hc : separates c = false) (cs : List Char) :
    pieces separates (c :: cs) = (pieces separates cs).modifyHead (c :: ·) := by
  rw [pieces, if_neg (by simp [hc])]
  cases hpieces : pieces separates cs with
  | nil => exact absurd hpieces (pieces_ne_nil _ _)
  | cons piece more => rfl

theorem pieces_append (hfront : ∀ c ∈ front, separates c = false) (cs : List Char) :
    pieces separates (front ++ cs) = (pieces separates cs).modifyHead (front ++ ·) := by
  induction front with
  | nil =>
    rw [List.nil_append]
    cases pieces separates cs <;> rfl
  | cons c front ih =>
    obtain ⟨hc, hrest⟩ := List.forall_mem_cons.mp hfront
    rw [List.cons_append, pieces_cons_of_not hc, ih hrest, List.modifyHead_modifyHead]
    rfl

theorem pieces_append_cons (hfront : ∀ c ∈ front, separates c = false) {mark : Char}
    (hmark : separates mark = true) (cs : List Char) :
    pieces separates (front ++ mark :: cs) = front :: pieces separates cs := by
  rw [pieces_append hfront, pieces, if_pos hmark, List.modifyHead_cons, List.append_nil]

theorem not_separates_of_mem_pieces {piece : List Char} (h : piece ∈ pieces separates cs) :
    ∀ c ∈ piece, separates c = false := by
  induction cs generalizing piece with
  | nil =>
    simp only [pieces, List.mem_singleton] at h
    simp [h]
  | cons c rest ih =>
    by_cases hc : separates c = true
    · rw [pieces, if_pos hc] at h
      rcases List.mem_cons.mp h with rfl | hmem
      · simp
      · exact ih hmem
    · have hfalse : separates c = false := by simpa using hc
      rw [pieces_cons_of_not hfalse] at h
      cases hpieces : pieces separates rest with
      | nil => exact absurd hpieces (pieces_ne_nil _ _)
      | cons first more =>
        rw [hpieces, List.modifyHead_cons] at h
        rcases List.mem_cons.mp h with rfl | hmem
        · exact List.forall_mem_cons.mpr ⟨hfalse, ih (hpieces ▸ List.mem_cons_self)⟩
        · exact ih (hpieces ▸ List.mem_cons_of_mem _ hmem)

/-- A character of two texts put together stands in the first or in the second one. -/
theorem append_eq_append_cons {left right front back : List Char} {c : Char}
    (h : left ++ right = front ++ c :: back) :
    (∃ more, left = front ++ c :: more) ∨
      ∃ rest, front = left ++ rest ∧ right = rest ++ c :: back := by
  rcases List.append_eq_append_iff.mp h with ⟨rest, hfront, hright⟩ | ⟨more, hleft, hright⟩
  · exact .inr ⟨rest, hfront, hright⟩
  · cases more with
    | nil => exact .inr ⟨[], by simpa using hleft.symm, hright.symm⟩
    | cons d more =>
      obtain ⟨rfl, -⟩ := List.cons.inj hright
      exact .inl ⟨more, hleft⟩

/-! Pieces put together again -/

def ended (mark : Char) (ps : List (List Char)) : List Char := ps.flatMap (· ++ [mark])

theorem ended_cons (mark : Char) (p : List Char) (ps : List (List Char)) :
    ended mark (p :: ps) = p ++ mark :: ended mark ps := by
  simp [ended]

theorem ended_append (mark : Char) (ps qs : List (List Char)) :
    ended mark (ps ++ qs) = ended mark ps ++ ended mark qs := List.flatMap_append

theorem pieces_ended_append {mark : Char} {ps : List (List Char)} (h : ∀ p ∈ ps, mark ∉ p)
    (cs : List Char) : pieces (· = mark) (ended mark ps ++ cs) = ps ++ pieces (· = mark) cs := by
  induction ps with
  | nil => rfl
  | cons p ps ih =>
    obtain ⟨hp, hps⟩ := List.forall_mem_cons.mp h
    have hfront : ∀ c ∈ p, decide (c = mark) = false := by
      intro c hc
      exact decide_eq_false fun heq => hp (heq ▸ hc)
    rw [ended_cons, List.append_assoc, List.cons_append, pieces_append_cons hfront (by simp),
      ih hps, List.cons_append]

theorem join_cons (mark : Char) (p : List Char) (ps : List (List Char)) :
    join mark (p :: ps) = p ++ ps.flatMap (mark :: ·) := by
  induction ps generalizing p with
  | nil => simp [join]
  | cons q qs ih =>
    have hjoin : join mark (p :: q :: qs) = p ++ mark :: join mark (q :: qs) := rfl
    rw [hjoin, ih, List.flatMap_cons, List.cons_append]

theorem join_append_cons (mark : Char) (ps : List (List Char)) (q : List Char)
    (qs : List (List Char)) :
    join mark (ps ++ q :: qs) = ended mark ps ++ join mark (q :: qs) := by
  induction ps with
  | nil => rfl
  | cons p ps ih =>
    have hjoin : join mark (p :: (ps ++ q :: qs)) = p ++ mark :: join mark (ps ++ q :: qs) := by
      cases ps <;> rfl
    rw [List.cons_append, hjoin, ih, ended_cons, List.append_assoc, List.cons_append]

theorem intercalate_eq_join (mark : Char) (ps : List (List Char)) :
    [mark].intercalate ps = join mark ps := by
  induction ps with
  | nil => rfl
  | cons p ps ih =>
    cases ps with
    | nil => simp [join]
    | cons q qs =>
      rw [List.intercalate_cons_cons, ih, List.append_assoc]
      rfl

theorem join_append_mark (mark : Char) {ps : List (List Char)} (h : ps ≠ []) :
    join mark ps ++ [mark] = ended mark ps := by
  obtain ⟨init, last, rfl⟩ := (List.eq_nil_or_concat ps).resolve_left h
  rw [List.concat_eq_append, join_append_cons, ended_append]
  simp [join, ended]

/-- Pieces without the separator in them are the pieces of what they make. -/
theorem pieces_join {mark : Char} {ps : List (List Char)} (hne : ps ≠ [])
    (h : ∀ p ∈ ps, mark ∉ p) : pieces (· = mark) (join mark ps) = ps := by
  obtain ⟨init, last, rfl⟩ := (List.eq_nil_or_concat ps).resolve_left hne
  have hlast : ∀ c ∈ last, decide (c = mark) = false := by
    intro c hc
    exact decide_eq_false fun heq => h last (by simp) (heq ▸ hc)
  have hpieces : pieces (· = mark) last = [last] := by
    have happend := pieces_append hlast []
    rwa [List.append_nil, pieces, List.modifyHead_cons, List.append_nil] at happend
  rw [List.concat_eq_append, join_append_cons,
    pieces_ended_append fun p hp => h p (by simp [hp]), join, hpieces]

theorem width_ended_cons (p : List Char) (ps : List (List Char)) :
    width (ended ' ' (p :: ps)) = width p + 1 + width (ended ' ' ps) := by
  have hblank : (' ' : Char).utf8Size = 1 := by decide
  rw [ended_cons, width_append, width, hblank]
  omega

theorem add_width_ended_cons (start : Nat) (p : List Char) (ps : List (List Char)) :
    start + width (ended ' ' (p :: ps)) = start + width p + 1 + width (ended ' ' ps) := by
  rw [width_ended_cons]
  omega

theorem mem_join_iff {mark : Char} {p : List Char} {ps : List (List Char)}
    (hps : ∀ q ∈ ps, mark ∉ q) (hp : mark ∉ p) : mark ∈ join mark (p :: ps) ↔ ps ≠ [] := by
  rw [join_cons, List.mem_append, or_iff_right hp, List.mem_flatMap]
  constructor
  · rintro ⟨q, hq, _⟩ rfl
    cases hq
  · intro hne
    obtain ⟨q, hq⟩ := List.exists_mem_of_ne_nil ps hne
    exact ⟨q, hq, List.mem_cons_self⟩

/-- What ends with a character that is not the mark ends with a piece that does. -/
theorem getLast?_of_join {mark : Char} {init : List (List Char)} {last : List Char} {c : Char}
    (hc : c ≠ mark) (h : (join mark (init ++ [last])).getLast? = some c) :
    last.getLast? = some c := by
  rw [join_append_cons, join, List.getLast?_append] at h
  cases hlast : last.getLast? with
  | some d => rwa [hlast, Option.some_or] at h
  | none =>
    rw [hlast, Option.none_or] at h
    rcases List.eq_nil_or_concat init with rfl | ⟨front, q, rfl⟩
    · cases h
    · rw [← join_append_mark mark (by simp), List.getLast?_concat] at h
      exact absurd (Option.some.inj h).symm hc

/-- Two fronts of the same pieces that take the same bytes are the same. -/
theorem eq_of_width_ended {ps qs ps' qs' : List (List Char)} (h : ps ++ qs = ps' ++ qs')
    (hwidth : width (ended ' ' ps) = width (ended ' ' ps')) : ps = ps' ∧ qs = qs' := by
  have hnil : ∀ more, width (ended ' ' more) = 0 → more = [] := by
    intro more hmore
    cases more with
    | nil => rfl
    | cons q more =>
      rw [width_ended_cons] at hmore
      omega
  rcases List.append_eq_append_iff.mp h with ⟨more, rfl, rfl⟩ | ⟨more, rfl, rfl⟩
  · rw [ended_append, width_append] at hwidth
    obtain rfl := hnil more (by omega)
    simp
  · rw [ended_append, width_append] at hwidth
    obtain rfl := hnil more (by omega)
    simp

/-! Words -/

def IsWord (cs : List Char) : Prop := cs ≠ [] ∧ ∀ c ∈ cs, isBlank c = false

theorem pieces_flatMap_blank {ws : List (List Char)} (h : ∀ w ∈ ws, IsWord w) :
    pieces isBlank (ws.flatMap (' ' :: ·)) = [] :: ws := by
  induction ws with
  | nil => rfl
  | cons w ws ih =>
    obtain ⟨hw, hws⟩ := List.forall_mem_cons.mp h
    have hblank : isBlank ' ' = true := by decide
    rw [List.flatMap_cons, List.cons_append, pieces, if_pos hblank, pieces_append hw.2, ih hws,
      List.modifyHead_cons, List.append_nil]

theorem words_flatMap_blank {ws : List (List Char)} (h : ∀ w ∈ ws, IsWord w) :
    words (ws.flatMap (' ' :: ·)) = ws := by
  have hkeep : ∀ w ∈ ws, (!w.isEmpty) = true := by
    intro w hw
    simpa using (h w hw).1
  rw [words, pieces_flatMap_blank h, List.filter_cons_of_neg (by simp),
    List.filter_eq_self.mpr hkeep]

theorem isWord_of_mem_words {w : List Char} (h : w ∈ words cs) : IsWord w := by
  obtain ⟨hpiece, hne⟩ := List.mem_filter.mp h
  exact ⟨by simpa using hne, not_separates_of_mem_pieces hpiece⟩

/-! Lines -/

theorem pieces_flatMap_lines {ls : List (List Char)} (h : ∀ l ∈ ls, '\n' ∉ l) :
    pieces (· = '\n') (ls.flatMap (· ++ ['\n'])) = ls ++ [[]] := by
  have hpieces := pieces_ended_append h []
  rwa [List.append_nil] at hpieces

theorem withoutReturn_eq_self {l : List Char} (h : l.getLast? ≠ some '\r') :
    withoutReturn l = l := by
  unfold withoutReturn dropLast?
  rw [if_neg h, Option.getD_none]

theorem endedLines_append_nil {ls : List (List Char)} (h : ∀ l ∈ ls, l.getLast? ≠ some '\r') :
    endedLines (ls ++ [[]]) = ls := by
  induction ls with
  | nil => rfl
  | cons l ls ih =>
    obtain ⟨hl, hls⟩ := List.forall_mem_cons.mp h
    rw [List.cons_append, endedLines, withoutReturn_eq_self hl, ih hls]
    simp

/-- Lines that end in no carriage return are read as they were written. -/
theorem lines_flatMap {ls : List (List Char)} (hfeed : ∀ l ∈ ls, '\n' ∉ l)
    (hreturn : ∀ l ∈ ls, l.getLast? ≠ some '\r') : lines (ls.flatMap (· ++ ['\n'])) = ls := by
  rw [lines, pieces_flatMap_lines hfeed, endedLines_append_nil hreturn]

theorem mem_of_mem_withoutReturn {c : Char} {l : List Char} (h : c ∈ withoutReturn l) : c ∈ l := by
  unfold withoutReturn dropLast? at h
  split at h
  · exact List.dropLast_subset l h
  · exact h

/-- Each line is what is left of a piece. -/
theorem exists_of_mem_endedLines {ps : List (List Char)} {l : List Char} (h : l ∈ endedLines ps) :
    ∃ p ∈ ps, ∀ c ∈ l, c ∈ p := by
  induction ps with
  | nil => simp [endedLines] at h
  | cons p ps ih =>
    cases ps with
    | nil =>
      simp only [endedLines] at h
      split at h
      · simp at h
      · exact ⟨p, List.mem_cons_self, fun c hc => (List.mem_singleton.mp h) ▸ hc⟩
    | cons next ps =>
      rw [endedLines] at h
      rcases List.mem_cons.mp h with rfl | hmem
      · exact ⟨p, List.mem_cons_self, fun c hc => mem_of_mem_withoutReturn hc⟩
      · obtain ⟨q, hq, hsub⟩ := ih hmem
        exact ⟨q, List.mem_cons_of_mem _ hq, hsub⟩
      · simp

theorem not_mem_of_mem_lines {l : List Char} (h : l ∈ lines cs) : '\n' ∉ l := by
  obtain ⟨p, hp, hsub⟩ := exists_of_mem_endedLines h
  intro hmem
  simpa using not_separates_of_mem_pieces hp '\n' (hsub '\n' hmem)

/-! Names before a mark -/

theorem cutAt_append {mark : Char} {name : List Char} (h : mark ∉ name) (cs : List Char) :
    cutAt mark (name ++ mark :: cs) = some (name, cs) := by
  induction name with
  | nil => simp [cutAt]
  | cons c name ih =>
    have hc : c ≠ mark := fun heq => h (heq ▸ List.mem_cons_self)
    have hrest : mark ∉ name := fun hmem => h (List.mem_cons_of_mem _ hmem)
    rw [List.cons_append, cutAt, if_neg hc, ih hrest, Option.map_some]

theorem of_cutAt_eq_some {mark : Char} {name rest : List Char}
    (h : cutAt mark cs = some (name, rest)) : cs = name ++ mark :: rest ∧ mark ∉ name := by
  induction cs generalizing name with
  | nil => simp [cutAt] at h
  | cons c cs ih =>
    unfold cutAt at h
    split at h
    · rename_i hc
      obtain ⟨rfl, rfl⟩ := Prod.mk.inj (Option.some.inj h)
      simp [hc]
    · rename_i hc
      obtain ⟨⟨before, after⟩, hcut, hpair⟩ := Option.map_eq_some_iff.mp h
      obtain ⟨rfl, rfl⟩ := Prod.mk.inj hpair
      obtain ⟨rfl, hmark⟩ := ih hcut
      exact ⟨rfl, by simp [hmark, Ne.symm hc]⟩

/-! Trimmed texts -/

theorem trimEnd_eq_rdropWhile (cs : List Char) : trimEnd cs = cs.rdropWhile isBlank := rfl

theorem trimEnd_append_cons {c : Char} (hc : isBlank c = false) (front back : List Char) :
    trimEnd (front ++ c :: back) = front ++ c :: trimEnd back := by
  have hdrop : (c :: front.reverse).dropWhile isBlank = c :: front.reverse := by
    rw [List.dropWhile_cons_of_neg (by simp [hc])]
  have hreverse : (front ++ c :: back).reverse = back.reverse ++ c :: front.reverse := by simp
  rw [trimEnd, hreverse, List.dropWhile_append, hdrop]
  split
  · rename_i hempty
    rw [trimEnd, List.isEmpty_iff.mp hempty]
    simp
  · simp [trimEnd]

theorem trimEnd_append_of_blank {back : List Char} (h : ∀ c ∈ back, isBlank c = true)
    (front : List Char) : trimEnd (front ++ back) = trimEnd front := by
  have hempty : back.reverse.dropWhile isBlank = [] := by
    rw [List.dropWhile_eq_nil_iff]
    intro c hc
    exact h c (List.mem_reverse.mp hc)
  rw [trimEnd, List.reverse_append, List.dropWhile_append, hempty, List.isEmpty_nil, if_pos rfl]
  rfl

/-- The first character is dropped only if all behind it is. -/
theorem trimEnd_cons (c : Char) (cs : List Char) :
    trimEnd (c :: cs) = c :: trimEnd cs ∨ trimEnd (c :: cs) = [] ∧ trimEnd cs = [] := by
  simp only [trimEnd, List.reverse_cons, List.dropWhile_append]
  split
  · rename_i hempty
    rw [List.isEmpty_iff.mp hempty]
    by_cases hc : isBlank c = true
    · exact .inr ⟨by rw [List.dropWhile_cons_of_pos hc, List.dropWhile_nil, List.reverse_nil], rfl⟩
    · exact .inl (by rw [List.dropWhile_cons_of_neg hc]; rfl)
  · exact .inl (by rw [List.reverse_append, List.reverse_singleton, List.singleton_append])

theorem head?_trimEnd_cons {c d : Char} (h : d ∈ (trimEnd (c :: cs)).head?) : d = c := by
  rcases trimEnd_cons c cs with hkept | ⟨hnil, -⟩
  · rw [hkept] at h
    exact (Option.some.inj h).symm
  · rw [hnil] at h
    cases h

theorem tail_trimEnd_cons (c : Char) (cs : List Char) :
    (trimEnd (c :: cs)).tail = trimEnd cs := by
  rcases trimEnd_cons c cs with hkept | ⟨hnil, hrest⟩
  · rw [hkept, List.tail_cons]
  · rw [hnil, hrest, List.tail_nil]

theorem not_blank_of_getLast?_trimEnd {c : Char} (h : c ∈ (trimEnd cs).getLast?) :
    isBlank c = false := by
  obtain ⟨hne, rfl⟩ := List.mem_getLast?_eq_getLast h
  exact Bool.eq_false_iff.mpr (List.rdropWhile_last_not isBlank cs hne)

theorem trim_sublist (cs : List Char) : (trim cs).Sublist cs := by
  unfold trim
  rw [trimEnd_eq_rdropWhile]
  exact (List.rdropWhile_prefix isBlank _).sublist.trans (List.dropWhile_suffix _).sublist

theorem trim_trim (cs : List Char) : trim (trim cs) = trim cs := by
  have hstart : trimStart (trim cs) = trim cs := by
    unfold trimStart
    rw [List.dropWhile_eq_self_iff]
    intro hpos hblank
    -- What is first after trimming both ends is first after trimming the start.
    obtain ⟨last, hlast⟩ : trim cs <+: trimStart cs := by
      unfold trim
      rw [trimEnd_eq_rdropWhile]
      exact List.rdropWhile_prefix isBlank _
    have hne : 0 < (trimStart cs).length := by
      rw [← hlast, List.length_append]
      omega
    have hfirst : (trimStart cs)[0] = (trim cs)[0] := by
      simp only [← hlast, List.getElem_append_left hpos]
    have hself : (trimStart cs).dropWhile isBlank = trimStart cs := List.dropWhile_idempotent ..
    exact List.dropWhile_eq_self_iff.mp hself hne (hfirst ▸ hblank)
  calc
    trim (trim cs) = trimEnd (trimStart (trim cs)) := rfl
    _ = trimEnd (trimEnd (trimStart cs)) := by rw [hstart, trim]
    _ = trim cs := List.rdropWhile_idempotent ..

/-- Trimming changes nothing when no blank is first or last. -/
theorem trim_eq_self_iff :
    trim cs = cs ↔
      (∀ c ∈ cs.head?, isBlank c = false) ∧ ∀ c ∈ cs.getLast?, isBlank c = false := by
  have hstart : trimStart cs = cs ↔ ∀ c ∈ cs.head?, isBlank c = false := by
    unfold trimStart
    cases cs with
    | nil => simp
    | cons c rest => simp [List.dropWhile_eq_self_iff]
  have hend : trimEnd cs = cs ↔ ∀ c ∈ cs.getLast?, isBlank c = false := by
    rw [trimEnd_eq_rdropWhile, List.rdropWhile_eq_self_iff]
    cases cs with
    | nil => simp
    | cons c rest => simp [List.getLast?_eq_some_getLast]
  rw [← hstart, ← hend]
  constructor
  · intro h
    -- Both ends only lose characters, so that neither of them loses any.
    have hkept : trimStart cs = cs := by
      refine (List.dropWhile_suffix isBlank).eq_of_length_le ?_
      have hle := ((List.rdropWhile_prefix isBlank (trimStart cs)).length_le : _)
      rw [← trimEnd_eq_rdropWhile] at hle
      exact (congrArg List.length h).symm.trans_le hle
    exact ⟨hkept, by rw [← hkept]; exact h.trans hkept.symm⟩
  · intro h
    rw [trim, h.1, h.2]

theorem trim_eq_nil_iff : trim cs = [] ↔ ∀ c ∈ cs, isBlank c = true := by
  unfold trim
  rw [trimEnd_eq_rdropWhile, List.rdropWhile_eq_nil_iff]
  unfold trimStart
  constructor
  · intro h c hc
    rw [← List.takeWhile_append_dropWhile (p := isBlank) (l := cs)] at hc
    rcases List.mem_append.mp hc with htake | hdrop
    · exact List.mem_takeWhile_imp htake
    · exact h c hdrop
  · intro h c hc
    exact h c ((List.dropWhile_suffix _).mem hc)

end Almanac.Text
