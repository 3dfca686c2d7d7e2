import Almanac.Proofs.Json.Numeral
import Almanac.Proofs.Json.Quoted
import Almanac.Proofs.Text.Pieces

/-!
A printed value reads back.
-/

namespace Almanac.Json

/-- A float is the one that its text stands for. The reader rounds more than once, so that a text
of many digits may miss the float by a little. -/
def ReadsBack (x : Float) : Prop := parse? (real x).pretty = some (real x)

/-- Values that can be read back from their text while so many brackets may still be opened. -/
inductive Fits : Nat → Json → Prop
  | null {depth : Nat} : Fits depth .null
  | bool {depth : Nat} (value : Bool) : Fits depth (.bool value)
  | int {depth : Nat} {n : Int} (hlow : -(wordLimit : Int) ≤ 2 * n) (hhigh : n < wordLimit) :
    Fits depth (.int n)
  | real {depth : Nat} {x : Float} (h : ReadsBack x) : Fits depth (.real x)
  | text {depth : Nat} (value : String) : Fits depth (.text value)
  | list {depth : Nat} {items : List Json} (h : ∀ item ∈ items, Fits depth item) :
    Fits (depth + 1) (.list items)
  | record {depth : Nat} {fields : List (String × Json)}
    (h : ∀ field ∈ fields, Fits depth field.2) : Fits (depth + 1) (.record fields)

/-- A text in which a value is read up to its end, whatever stands behind it. -/
def Reads (depth : Nat) (value : Json) (cs : List Char) : Prop :=
  ∀ steps rest, cs.length ≤ steps → Ends rest →
    readValue? steps depth (cs ++ rest) = some (value, rest)

/-- A text that is read up to its end, before nothing, is the text of a value. -/
theorem Reads.parse? {value : Json} {text : String} (h : Reads 127 value text.toList) :
    parse? text = some value := by
  have hends : Ends [] := fun c hc => by cases hc
  have hread := h (text.toList.length + 1) [] (Nat.le_succ _) hends
  rw [List.append_nil] at hread
  rw [Json.parse?, hread]
  rfl

/-! Blanks -/

theorem isSpace_of_isNumeric {c : Char} (hc : isNumeric c = true) : isSpace c = false := by
  have hother : ∀ d, isNumeric d = false → c ≠ d := by
    rintro d hd rfl
    rw [hc] at hd
    cases hd
  simp only [isSpace, Bool.or_eq_false_iff, decide_eq_false_iff_not]
  exact ⟨⟨⟨hother _ (by decide), hother _ (by decide)⟩, hother _ (by decide)⟩,
    hother _ (by decide)⟩

section

variable {gap : List Char}

theorem skipSpace_append (hgap : ∀ c ∈ gap, isSpace c = true) (cs : List Char) :
    skipSpace (gap ++ cs) = skipSpace cs := List.dropWhile_append_of_pos hgap

theorem skipSpace_cons {c : Char} (hc : isSpace c = false) (cs : List Char) :
    skipSpace (c :: cs) = c :: cs := List.dropWhile_cons_of_neg (by simp [hc])

theorem readValue?_append (hgap : ∀ c ∈ gap, isSpace c = true) (steps depth : Nat)
    (cs : List Char) : readValue? steps depth (gap ++ cs) = readValue? steps depth cs := by
  cases steps with
  | zero => rfl
  | succ steps => rw [readValue?, readValue?, skipSpace_append hgap]

theorem readFields?_append (hgap : ∀ c ∈ gap, isSpace c = true) (steps depth : Nat)
    (cs : List Char) : readFields? steps depth (gap ++ cs) = readFields? steps depth cs := by
  cases steps with
  | zero => rfl
  | succ steps => rw [readFields?, readFields?, skipSpace_append hgap]

end

theorem Ends.of_skipSpace {cs more : List Char} {c : Char} (hc : isNumeric c = false)
    (h : skipSpace cs = c :: more) : Ends cs := by
  intro d hd
  obtain ⟨rest, rfl⟩ := List.head?_eq_some_iff.mp hd
  cases hnumeric : isNumeric d with
  | false => rfl
  | true =>
    rw [skipSpace_cons (isSpace_of_isNumeric hnumeric)] at h
    rw [(List.cons.inj h).1, hc] at hnumeric
    cases hnumeric

/-! Scalars -/

section

variable {depth : Nat} {value : Json} {cs : List Char}

theorem Reads.intro (hcs : cs ≠ [])
    (h : ∀ steps rest, cs.length ≤ steps + 1 → Ends rest →
      readValue? (steps + 1) depth (cs ++ rest) = some (value, rest)) :
    Reads depth value cs := by
  intro steps rest hsteps hrest
  cases steps with
  | zero => exact absurd (List.length_eq_zero_iff.mp (Nat.le_zero.mp hsteps)) hcs
  | succ steps => exact h steps rest hsteps hrest

theorem reads_null : Reads depth .null "null".toList := .intro (by decide) fun _ _ _ _ => rfl

theorem reads_bool (b : Bool) : Reads depth (.bool b) (scalar (.bool b)).toList := by
  cases b with
  | false => exact .intro (by decide) fun _ _ _ _ => rfl
  | true => exact .intro (by decide) fun _ _ _ _ => rfl

theorem reads_text (text : String) : Reads depth (.text text) (quoted text).toList := by
  refine .intro (by simp [quoted]) fun steps rest _ _ => ?_
  have hcs : (quoted text).toList ++ rest =
      '"' :: (text.toList.flatMap escaped ++ '"' :: rest) := by
    simp [quoted]
  have hread : readValue? (steps + 1) depth ('"' :: (text.toList.flatMap escaped ++ '"' :: rest)) =
      (readText? (text.toList.flatMap escaped ++ '"' :: rest)).map fun found =>
        (ofText? found.1, found.2) := rfl
  rw [hcs, hread, readText?_quoted, Option.map_some, ofText?]

theorem readValue?_numeric {c : Char} (hc : isNumeric c = true) (steps : Nat) (cs : List Char) :
    readValue? (steps + 1) depth (c :: cs) =
      (readNumeral? (c :: cs)).map fun found => (found.1.toJson, found.2) := by
  have hother : ∀ d, isNumeric d = false → c ≠ d := by
    rintro d hd rfl
    rw [hc] at hd
    cases hd
  rw [readValue?, skipSpace_cons (isSpace_of_isNumeric hc)]
  split
  · rename_i heq
    cases heq
  · rename_i heq
    exact absurd (List.cons.inj heq).1 (hother '"' (by decide))
  · rename_i heq
    exact absurd (List.cons.inj heq).1 (hother '[' (by decide))
  · rename_i heq
    exact absurd (List.cons.inj heq).1 (hother '\x7b' (by decide))
  · rename_i heq
    obtain ⟨rfl, rfl⟩ := List.cons.inj heq
    rw [if_neg (hother 'n' (by decide)), if_neg (hother 't' (by decide)),
      if_neg (hother 'f' (by decide))]

/-- A numeral that is read to its end is read as its value. -/
theorem Reads.of_numeral {n : Numeral} (hcs : ∀ c ∈ cs, isNumeric c = true)
    (hread : readNumeral? cs = some (n, [])) (hvalue : n.toJson = value) :
    Reads depth value cs := by
  cases cs with
  | nil => cases hread
  | cons c cs =>
    refine .intro (by simp) fun steps rest _ hrest => ?_
    rw [List.cons_append, readValue?_numeric (hcs c List.mem_cons_self), ← List.cons_append,
      readNumeral?_append hrest hread, Option.map_some, List.nil_append, hvalue]

theorem reads_int {n : Int} (hlow : -(wordLimit : Int) ≤ 2 * n) (hhigh : n < wordLimit) :
    Reads depth (.int n) (toString n).toList := by
  obtain ⟨numeral, hread, hvalue⟩ := exists_readNumeral?_toString hlow hhigh
  exact .of_numeral (isNumeric_of_mem_toString n) hread hvalue

theorem isFinite_of_readsBack {x : Float} (h : ReadsBack x) : x.isFinite = true := by
  by_contra hnot
  have hnull : (real x).pretty = "null" := if_neg hnot
  have hparse : parse? "null" = some null := rfl
  rw [ReadsBack, hnull, hparse] at h
  cases h

theorem isNumeric_of_mem_scalar {x : Float} (h : x.isFinite = true) :
    ∀ c ∈ (scalar (.real x)).toList, isNumeric c = true := by
  have hscalar : scalar (.real x) = numberLayout.render x := if_pos h
  rw [hscalar]
  exact isNumeric_of_mem_render x

/-- A float reads back when its text is a numeral of that value, with a fraction or an exponent. -/
theorem readsBack_of_numeral {n : Numeral} {x : Float}
    (hread : readNumeral? (scalar (.real x)).toList = some (n, [])) (hplain : n.plain = false)
    (hvalue : n.toFloat = x) : ReadsBack x := by
  have hfinite : x.isFinite = true := by
    by_contra hnot
    have hnull : scalar (.real x) = "null" := if_neg hnot
    have hnone : readNumeral? "null".toList = none := rfl
    rw [hnull, hnone] at hread
    cases hread
  have hreal : n.toJson = real x := by simp [Numeral.toJson, hplain, hvalue, hfinite]
  exact (Reads.of_numeral (isNumeric_of_mem_scalar hfinite) hread hreal).parse?

/-- A float whose text alone stands for it is read from that text anywhere. -/
theorem reads_real {x : Float} (h : ReadsBack x) :
    Reads depth (.real x) (scalar (.real x)).toList := by
  have hnumeric := isNumeric_of_mem_scalar (isFinite_of_readsBack h)
  have htext : (real x).pretty = scalar (.real x) := rfl
  rw [ReadsBack, htext] at h
  obtain ⟨⟨value, rest⟩, hvalue, hdone⟩ := Option.bind_eq_some_iff.mp h
  generalize (scalar (.real x)).toList = cs at hnumeric hvalue ⊢
  cases cs with
  | nil => cases hvalue
  | cons c cs =>
    rw [readValue?_numeric (hnumeric c List.mem_cons_self)] at hvalue
    obtain ⟨⟨n, left⟩, hread, hpair⟩ := Option.map_eq_some_iff.mp hvalue
    obtain ⟨rfl, rfl⟩ := Prod.mk.inj hpair
    have hleft : left = [] := by
      cases left with
      | nil => rfl
      | cons d left =>
        have hd := hnumeric d ((readNumeral?_suffix hread).mem List.mem_cons_self)
        simp [skipSpace_cons (isSpace_of_isNumeric hd)] at hdone
    subst hleft
    refine .of_numeral hnumeric hread ?_
    simpa [skipSpace] using hdone

end

/-! Lists and records -/

section

variable {depth : Nat} {gap after : List Char}

section

variable {item : Json} {text cs more : List Char} {steps : Nat}

theorem readItems?_comma (hgap : ∀ c ∈ gap, isSpace c = true) (hitem : Reads depth item text)
    (hsteps : text.length ≤ steps) (hcs : skipSpace cs = ',' :: more) :
    readItems? (steps + 1) depth (gap ++ (text ++ cs)) =
      (readItems? steps depth more).map fun found => (item :: found.1, found.2) := by
  have hends : Ends cs := .of_skipSpace (by decide) hcs
  rw [readItems?, readValue?_append hgap, hitem steps cs hsteps hends, Option.bind_eq_bind,
    Option.bind_some]
  dsimp only
  rw [hcs, Option.map_eq_bind]
  rfl

theorem readItems?_close (hgap : ∀ c ∈ gap, isSpace c = true) (hitem : Reads depth item text)
    (hsteps : text.length ≤ steps) (hcs : skipSpace cs = ']' :: more) :
    readItems? (steps + 1) depth (gap ++ (text ++ cs)) = some ([item], more) := by
  have hends : Ends cs := .of_skipSpace (by decide) hcs
  rw [readItems?, readValue?_append hgap, hitem steps cs hsteps hends, Option.bind_eq_bind,
    Option.bind_some]
  dsimp only
  rw [hcs]
  rfl

end

/-- Items are read up to the bracket behind them. -/
theorem readItems?_join (hgap : ∀ c ∈ gap, isSpace c = true)
    (hafter : ∀ c ∈ after, isSpace c = true) {items : List Json} {texts : List (List Char)}
    (h : List.Forall₂ (Reads depth) items texts) (hne : items ≠ []) {steps : Nat}
    (hsteps : (Text.join ',' (texts.map (gap ++ ·))).length < steps) (rest : List Char) :
    readItems? steps depth (Text.join ',' (texts.map (gap ++ ·)) ++ (after ++ ']' :: rest)) =
      some (items, rest) := by
  induction h generalizing steps with
  | nil => exact absurd rfl hne
  | @cons item text items texts hitem hitems ih =>
    obtain ⟨steps, rfl⟩ : ∃ fewer, steps = fewer + 1 := ⟨steps - 1, by omega⟩
    cases hitems with
    | nil =>
      simp only [List.map_cons, List.map_nil, Text.join, List.length_append] at hsteps
      simp only [List.map_cons, List.map_nil, Text.join, List.append_assoc]
      exact readItems?_close hgap hitem (by omega)
        ((skipSpace_append hafter _).trans (skipSpace_cons (by decide) rest))
    | @cons next nextText items texts hnext hitems =>
      have hjoin : Text.join ',' ((text :: nextText :: texts).map (gap ++ ·)) =
          gap ++ (text ++ ',' :: Text.join ',' ((nextText :: texts).map (gap ++ ·))) := by
        simp [Text.join]
      rw [hjoin, List.length_append, List.length_append, List.length_cons] at hsteps
      rw [hjoin, List.append_assoc, List.append_assoc, List.cons_append,
        readItems?_comma hgap hitem (by omega) (skipSpace_cons (by decide) _),
        ih (by simp) (by omega)]
      rfl

def fieldText (key : String) (text : List Char) : List Char :=
  (quoted key).toList ++ ':' :: ' ' :: text

section

variable {key : String} {value : Json} {text cs more : List Char} {steps : Nat}

/-- The key of a field is read, and then its value. -/
theorem readFields?_fieldText (hgap : ∀ c ∈ gap, isSpace c = true)
    (hvalue : Reads depth value text) (hsteps : text.length ≤ steps) (hcs : Ends cs) :
    readFields? (steps + 1) depth (gap ++ (fieldText key text ++ cs)) =
      match skipSpace cs with
      | ',' :: after =>
        (readFields? steps depth after).bind fun found =>
          some ((some key, value) :: found.1, found.2)
      | '\x7d' :: after => some ([(some key, value)], after)
      | _ => none := by
  have hquoted : fieldText key text ++ cs =
      '"' :: (key.toList.flatMap escaped ++ '"' :: (':' :: ([' '] ++ (text ++ cs)))) := by
    simp [fieldText, quoted]
  have hcolon : skipSpace (':' :: ([' '] ++ (text ++ cs))) = ':' :: ([' '] ++ (text ++ cs)) :=
    skipSpace_cons (by decide) _
  have hread : readValue? steps depth ([' '] ++ (text ++ cs)) = some (value, cs) := by
    rw [readValue?_append (List.all_eq_true.mp rfl), hvalue steps cs hsteps hcs]
  rw [readFields?_append hgap, hquoted, readFields?, skipSpace_cons (by decide)]
  split
  · rename_i name hname
    obtain rfl := (List.cons.inj hname).2
    rw [readText?_quoted, Option.bind_eq_bind, Option.bind_some]
    dsimp only
    rw [hcolon]
    show (readValue? steps depth ([' '] ++ (text ++ cs))).bind _ = _
    rw [hread]
    rfl
  · rename_i hname
    exact absurd rfl (hname _)

theorem readFields?_comma (hgap : ∀ c ∈ gap, isSpace c = true)
    (hvalue : Reads depth value text) (hsteps : text.length ≤ steps)
    (hcs : skipSpace cs = ',' :: more) :
    readFields? (steps + 1) depth (gap ++ (fieldText key text ++ cs)) =
      (readFields? steps depth more).map fun found =>
        ((some key, value) :: found.1, found.2) := by
  rw [readFields?_fieldText hgap hvalue hsteps (.of_skipSpace (by decide) hcs), hcs,
    Option.map_eq_bind]
  rfl

theorem readFields?_close (hgap : ∀ c ∈ gap, isSpace c = true)
    (hvalue : Reads depth value text) (hsteps : text.length ≤ steps)
    (hcs : skipSpace cs = '\x7d' :: more) :
    readFields? (steps + 1) depth (gap ++ (fieldText key text ++ cs)) =
      some ([(some key, value)], more) := by
  rw [readFields?_fieldText hgap hvalue hsteps (.of_skipSpace (by decide) hcs), hcs]
  rfl

/-- Fields are read up to the brace behind them. -/
theorem readFields?_join (hgap : ∀ c ∈ gap, isSpace c = true)
    (hafter : ∀ c ∈ after, isSpace c = true) {fields : List (String × Json)}
    {texts : List (List Char)}
    (h : List.Forall₂ (fun field text => ∃ cs, Reads depth field.2 cs ∧
      text = fieldText field.1 cs) fields texts) (hne : fields ≠ [])
    (hsteps : (Text.join ',' (texts.map (gap ++ ·))).length < steps) (rest : List Char) :
    readFields? steps depth
        (Text.join ',' (texts.map (gap ++ ·)) ++ (after ++ '\x7d' :: rest)) =
      some (fields.map fun field => (some field.1, field.2), rest) := by
  have hlength : ∀ key cs, cs.length ≤ (fieldText key cs).length := by
    intro key cs
    rw [fieldText, List.length_append, List.length_cons, List.length_cons]
    omega
  induction h generalizing steps with
  | nil => exact absurd rfl hne
  | @cons field text fields texts hfield hfields ih =>
    obtain ⟨steps, rfl⟩ : ∃ fewer, steps = fewer + 1 := ⟨steps - 1, by omega⟩
    obtain ⟨cs, hcs, rfl⟩ := hfield
    have hle := hlength field.1 cs
    cases hfields with
    | nil =>
      simp only [List.map_cons, List.map_nil, Text.join, List.length_append] at hsteps
      simp only [List.map_cons, List.map_nil, Text.join, List.append_assoc]
      exact readFields?_close hgap hcs (by omega)
        ((skipSpace_append hafter _).trans (skipSpace_cons (by decide) rest))
    | @cons next nextText fields texts hnext hfields =>
      have hjoin : Text.join ',' ((fieldText field.1 cs :: nextText :: texts).map (gap ++ ·)) =
          gap ++ (fieldText field.1 cs ++
            ',' :: Text.join ',' ((nextText :: texts).map (gap ++ ·))) := by
        simp [Text.join]
      rw [hjoin, List.length_append, List.length_append, List.length_cons] at hsteps
      rw [hjoin, List.append_assoc, List.append_assoc, List.cons_append,
        readFields?_comma hgap hcs (by omega) (skipSpace_cons (by decide) _),
        ih (by simp) (by omega)]
      rfl

end

theorem readValue?_bracket (steps depth : Nat) (cs : List Char) :
    readValue? (steps + 1) depth ('[' :: cs) =
      match skipSpace cs with
      | ']' :: after => some (within depth (.list []), after)
      | _ =>
        (readItems? steps (depth - 1) cs).map fun found =>
          (within depth (.list found.1), found.2) := rfl

theorem readValue?_brace (steps depth : Nat) (cs : List Char) :
    readValue? (steps + 1) depth ('\x7b' :: cs) =
      match skipSpace cs with
      | '\x7d' :: after => some (within depth (.record []), after)
      | _ =>
        (readFields? steps (depth - 1) cs).map fun found =>
          (within depth (ofFields found.1), found.2) := rfl

theorem readItems?_of_close {cs more : List Char} (h : skipSpace cs = ']' :: more) (steps : Nat) :
    readItems? steps depth cs = none := by
  have hvalue : ∀ steps, readValue? steps depth cs = none := by
    intro steps
    cases steps with
    | zero => rfl
    | succ steps =>
      rw [readValue?, h]
      rfl
  cases steps with
  | zero => rfl
  | succ steps =>
    rw [readItems?, hvalue]
    rfl

theorem readFields?_of_close {cs more : List Char} (h : skipSpace cs = '\x7d' :: more)
    (steps : Nat) : readFields? steps depth cs = none := by
  cases steps with
  | zero => rfl
  | succ steps =>
    rw [readFields?, h]
    rfl

theorem readValue?_list {cs rest : List Char} {items : List Json} {steps : Nat}
    (h : readItems? steps depth cs = some (items, rest)) :
    readValue? (steps + 1) (depth + 1) ('[' :: cs) = some (.list items, rest) := by
  have hopen : ∀ after, skipSpace cs ≠ ']' :: after := by
    intro after hafter
    rw [readItems?_of_close hafter] at h
    cases h
  rw [readValue?_bracket]
  split
  · exact absurd ‹_› (hopen _)
  · rw [Nat.add_sub_cancel, h]
    rfl

theorem readValue?_record {cs rest : List Char} {fields : List (String × Json)} {steps : Nat}
    (h : readFields? steps depth cs =
      some (fields.map fun field => (some field.1, field.2), rest)) :
    readValue? (steps + 1) (depth + 1) ('\x7b' :: cs) = some (.record fields, rest) := by
  have hopen : ∀ after, skipSpace cs ≠ '\x7d' :: after := by
    intro after hafter
    rw [readFields?_of_close hafter] at h
    cases h
  have hkeys : ofFields (fields.map fun field => (some field.1, field.2)) = .record fields := by
    have hsome : (fields.map fun field => (some field.1, field.2)).mapM
        (fun field => field.1.map fun key => (key, field.2)) = some fields :=
      mapM_map_eq_some fun _ _ => rfl
    rw [ofFields, hsome]
  rw [readValue?_brace]
  split
  · exact absurd ‹_› (hopen _)
  · rw [Nat.add_sub_cancel, h, Option.map_some, hkeys]
    rfl

end

/-! The printed text -/

theorem prettyItems_eq_map (level : Nat) (items : List Json) :
    prettyItems level items = items.map (prettyAt level) := by
  induction items with
  | nil => rfl
  | cons item rest ih => rw [prettyItems, ih, List.map_cons]

theorem prettyFields_eq_map (level : Nat) (fields : List (String × Json)) :
    prettyFields level fields =
      fields.map fun field => quoted field.1 ++ ": " ++ prettyAt level field.2 := by
  induction fields with
  | nil => rfl
  | cons field rest ih => rw [prettyFields, ih, List.map_cons]

def margin (level : Nat) : List Char := '\n' :: (indent level).toList

theorem isSpace_of_mem_margin (level : Nat) : ∀ c ∈ margin level, isSpace c = true := by
  rw [margin, indent, String.toList_ofList, List.forall_mem_cons]
  refine ⟨by decide, fun c hc => ?_⟩
  rw [(List.mem_replicate.mp hc).2]
  decide

theorem cons_intercalate_eq_join {ps : List (List Char)} (h : ps ≠ []) :
    '\n' :: [',', '\n'].intercalate ps = Text.join ',' (ps.map ('\n' :: ·)) := by
  induction ps with
  | nil => exact absurd rfl h
  | cons p ps ih =>
    cases ps with
    | nil => simp [Text.join]
    | cons q qs =>
      rw [List.intercalate_cons_cons, List.append_assoc, List.map_cons, List.map_cons, Text.join,
        ← List.map_cons, ← ih (by simp)]
      · rfl
      · simp

/-- A block with entries holds each of them behind its margin. -/
theorem toList_block (opening closing : String) (level : Nat) {entries : List String}
    (h : entries ≠ []) :
    (block opening closing level entries).toList =
      opening.toList ++
        (Text.join ',' ((entries.map String.toList).map (margin (level + 1) ++ ·)) ++
          (margin level ++ closing.toList)) := by
  have hpieces : (entries.map (indent (level + 1) ++ ·)).map String.toList ≠ [] := by
    simpa using h
  have hmap : ((entries.map (indent (level + 1) ++ ·)).map String.toList).map ('\n' :: ·) =
      (entries.map String.toList).map (margin (level + 1) ++ ·) := by
    simp [margin]
  rw [← hmap, ← cons_intercalate_eq_join hpieces, block, if_neg (by simpa using h)]
  simp [margin, String.toList_intercalate]

section

variable {depth level : Nat}

theorem reads_list {items : List Json}
    (h : ∀ item ∈ items, Reads depth item (prettyAt (level + 1) item).toList) :
    Reads (depth + 1) (.list items) (prettyAt level (.list items)).toList := by
  rw [prettyAt, prettyItems_eq_map]
  by_cases hne : items = []
  · subst hne
    have hempty : block "[" "]" level ([].map (prettyAt (level + 1))) = "[]" := rfl
    rw [hempty]
    exact .intro (by decide) fun _ _ _ _ => rfl
  have htexts : List.Forall₂ (Reads depth) items
      ((items.map (prettyAt (level + 1))).map String.toList) := by
    rw [List.map_map, List.forall₂_map_right_iff, List.forall₂_same]
    exact h
  have hopening : ("[" : String).toList = ['['] := rfl
  have hclosing : ("]" : String).toList = [']'] := rfl
  rw [toList_block _ _ _ (by simpa using hne), hopening, hclosing]
  refine .intro (by simp) fun steps rest hsteps _ => ?_
  simp only [List.length_append, List.length_cons] at hsteps
  simp only [List.append_assoc, List.cons_append, List.nil_append]
  exact readValue?_list (readItems?_join (isSpace_of_mem_margin _) (isSpace_of_mem_margin _)
    htexts hne (by omega) rest)

theorem reads_record {fields : List (String × Json)}
    (h : ∀ field ∈ fields, Reads depth field.2 (prettyAt (level + 1) field.2).toList) :
    Reads (depth + 1) (.record fields) (prettyAt level (.record fields)).toList := by
  rw [prettyAt, prettyFields_eq_map]
  by_cases hne : fields = []
  · subst hne
    have hempty : ∀ f : String × Json → String,
        block "\x7b" "\x7d" level ([].map f) = "\x7b\x7d" := fun _ => rfl
    rw [hempty]
    exact .intro (by decide) fun _ _ _ _ => rfl
  have htexts : List.Forall₂ (fun field text => ∃ cs, Reads depth field.2 cs ∧
      text = fieldText field.1 cs) fields
      ((fields.map fun field => quoted field.1 ++ ": " ++ prettyAt (level + 1) field.2).map
        String.toList) := by
    rw [List.map_map, List.forall₂_map_right_iff, List.forall₂_same]
    intro field hfield
    exact ⟨_, h field hfield, by simp [fieldText]⟩
  have hopening : ("\x7b" : String).toList = ['\x7b'] := rfl
  have hclosing : ("\x7d" : String).toList = ['\x7d'] := rfl
  rw [toList_block _ _ _ (by simpa using hne), hopening, hclosing]
  refine .intro (by simp) fun steps rest hsteps _ => ?_
  simp only [List.length_append, List.length_cons] at hsteps
  simp only [List.append_assoc, List.cons_append, List.nil_append]
  exact readValue?_record (readFields?_join (isSpace_of_mem_margin _) (isSpace_of_mem_margin _)
    htexts hne (by omega) rest)

end

/-- What fits is read back from where it is printed. -/
theorem reads_prettyAt {depth : Nat} {value : Json} (h : Fits depth value) (level : Nat) :
    Reads depth value (prettyAt level value).toList := by
  induction h generalizing level with
  | null => exact reads_null
  | bool b => exact reads_bool b
  | int hlow hhigh => exact reads_int hlow hhigh
  | real h => exact reads_real h
  | text s => exact reads_text s
  | list h ih => exact reads_list fun item hitem => ih item hitem (level + 1)
  | record h ih => exact reads_record fun field hfield => ih field hfield (level + 1)

/-- A value that fits into the brackets that the reader opens is read back from its text. -/
theorem parse?_pretty {value : Json} (h : Fits 127 value) : parse? value.pretty = some value :=
  (reads_prettyAt h 0).parse?

end Almanac.Json
