import Almanac.Proofs.Query.Cutting
import Almanac.Proofs.Query.Grammar

/-!
Texts that can be continued to a query of the built-in commands. What is missing can be supplied by
sample words, one for each kind of parameter. So texts are viable as soon as each of them fits its
parameter, and one more text that fits leaves them viable.
-/

namespace Almanac

namespace Token

/-- The text makes a token wherever it is written between blanks. -/
def Plain (text : String) : Prop :=
  text.toList ≠ [] ∧ ' ' ∉ text.toList ∧ opensRun text.toList = false

instance (text : String) : Decidable (Plain text) := inferInstanceAs (Decidable (_ ∧ _ ∧ _))

def lineOf (texts : List String) : List Char := Text.ended ' ' (texts.map String.toList)

theorem lineOf_append (texts more : List String) :
    lineOf (texts ++ more) = lineOf texts ++ lineOf more := by
  rw [lineOf, List.map_append, Text.ended_append]
  rfl

/-- Plain texts are the texts of the tokens of their line. -/
theorem scan_lineOf {texts : List String} (h : ∀ text ∈ texts, Plain text) :
    (scan (lineOf texts)).map text = texts := by
  have hpieces : Text.pieces (· = ' ') (lineOf texts) = texts.map String.toList ++ [[]] := by
    have hblanks : ∀ p ∈ texts.map String.toList, ' ' ∉ p := by
      simpa using fun text ht => (h text ht).2.1
    have hended := Text.pieces_ended_append hblanks []
    rwa [List.append_nil] at hended
  have htokens : ∀ start, (ofPieces none start (texts.map String.toList ++ [[]])).map text =
      texts := by
    clear hpieces
    induction texts with
    | nil => simp [ofPieces]
    | cons first rest ih =>
      intro start
      obtain ⟨⟨hne, -, hopens⟩, hrest⟩ := List.forall_mem_cons.mp h
      simp only [List.map_cons, List.cons_append, ofPieces, List.isEmpty_iff, hne, if_false,
        hopens, Bool.false_eq_true, ih hrest, String.ofList_toList]
  rw [scan, hpieces, htokens]

theorem settled_lineOf {words : List String} (h : ∀ word ∈ words, Plain word) :
    Settled (lineOf words) := by
  refine ⟨words.map String.toList, ?_, rfl, ?_⟩
  · simpa using fun word hword => (h word hword).2.1
  · induction words with
    | nil => rfl
    | cons word words ih =>
      obtain ⟨hword, hwords⟩ := List.forall_mem_cons.mp h
      simpa [openAfter, hword.2.2] using ih hwords

theorem scan_of_plain {word : String} (h : Plain word) : scan word.toList = [⟨word, 0⟩] := by
  obtain ⟨hne, hblank, hopens⟩ := h
  have hpieces : Text.pieces (· = ' ') word.toList = [word.toList] :=
    @Text.pieces_join ' ' [word.toList] (by simp) (by simpa using hblank)
  rw [scan, hpieces, ofPieces, if_neg (by simpa using hne), if_neg (by simp [hopens]), ofPieces,
    String.ofList_toList]

end Token

namespace Grammar

open Argument CommandTable Query Token

/-! Sample words -/

def sample : ParamKind → String
  | .row => "`a`"
  | .date => "2024-01-01"
  | .string => "\"a\""
  | .int | .number => "1"
  | _ => "a"

theorem plain_sample (kind : ParamKind) : Plain (sample kind) := by
  cases kind <;> decide

theorem fits_sample {days : Nat} {kind : ParamKind} (hslot : kind ≠ .subQuery)
    (hknown : kind ≠ .unsupported) : Fits days kind (sample kind) := by
  have hnumber : IsNumber (sample .number) := ⟨1, by decide, by decide⟩
  cases kind with
  | row =>
    exact fits_row_iff.mpr ⟨by decide, by decide, by decide⟩
  | date => exact fits_date_iff.mpr (.inr ⟨by decide, by decide⟩)
  | string =>
    exact fits_string_iff.mpr ⟨by decide, by decide, by decide⟩
  | int => exact fits_int_iff.mpr hnumber
  | number => exact fits_number_iff.mpr hnumber
  | enum => exact fits_enum
  | subQuery => exact absurd rfl hslot
  | unsupported => exact absurd rfl hknown

def sampleSub : List String := ["min", sample .row]

theorem plain_sampleSub : ∀ text ∈ sampleSub, Plain text := by decide

theorem sub_sampleSub (days : Nat) : Sub days sampleSub :=
  .aggregate (by decide) (.whole (fits_row_iff.mp (@fits_sample days _ (by decide) (by decide))))

/-! Viable texts -/

variable {days : Nat} {nested : Bool} {c : Command} {args texts : List String}

/-- Plain words can follow the texts so that a query is made. -/
def Viable (days : Nat) (nested : Bool) (texts : List String) : Prop :=
  ∃ more, (∀ text ∈ more, Plain text) ∧ Derives days nested (texts ++ more)

def tokensOf (texts : List String) : List Token := texts.map (⟨·, 0⟩)

@[simp] theorem text_tokensOf (texts : List String) : (tokensOf texts).map Token.text = texts := by
  simp [tokensOf, Function.comp_def]

@[simp] theorem length_tokensOf (texts : List String) : (tokensOf texts).length = texts.length :=
  List.length_map _

theorem forall_zip_iff {α β : Type} {P : α → β → Prop} {xs : List α} {ys : List β} :
    (∀ bound ∈ xs.zip ys, P bound.1 bound.2) ↔
      ∀ (i : Nat) (x : α) (y : β), xs[i]? = some x → ys[i]? = some y → P x y := by
  constructor
  · intro h i x y hx hy
    exact h (x, y) (List.mem_of_getElem? (List.getElem?_zip_eq_some.mpr ⟨hx, hy⟩))
  · intro h bound hbound
    obtain ⟨i, hi⟩ := List.getElem?_of_mem hbound
    obtain ⟨hx, hy⟩ := List.getElem?_zip_eq_some.mp hi
    exact h i _ _ hx hy

/-- Without sub-queries a command is followed by a fitting text for each parameter, down to the
last required one. -/
theorem derives_flat_iff (hmem : c ∈ builtin.commands) (hvisible : c.visibleIn nested = true)
    (hbare : c.discriminant = none) (hflat : c.subQueryParams = []) :
    Derives days nested (c.name :: args) ↔
      (c.required.length ≤ args.length ∧ args.length ≤ c.params.length) ∧
        ∀ (i : Nat) (p : Param) (text : String), c.params[i]? = some p → args[i]? = some text →
          Fits days p.kind text := by
  have hresolve := resolve_of_bare hmem hbare hvisible ((tokensOf args).head?.map Token.text)
  have hforms := @forms_iff_derives days 0 nested (⟨c.name, 0⟩ :: tokensOf args)
  have hfits : (∀ bound ∈ c.params.zip (tokensOf args), Fits days bound.1.kind bound.2.text) ↔
      ∀ (i : Nat) (p : Param) (text : String), c.params[i]? = some p → args[i]? = some text →
        Fits days p.kind text := by
    rw [tokensOf, List.zip_map_right, List.forall_mem_map]
    exact @forall_zip_iff _ _ (fun p text => Fits days p.kind text) c.params args
  rw [List.map_cons, text_tokensOf, forms_cons_iff] at hforms
  rw [← hforms]
  simp only [hresolve, Option.some.injEq, exists_eq_left', follows_of_no_slot hflat, hfits,
    length_tokensOf]

theorem viable_flat (hmem : c ∈ builtin.commands) (hvisible : c.visibleIn nested = true)
    (hbare : c.discriminant = none) (hflat : c.subQueryParams = [])
    (hlength : args.length ≤ c.params.length)
    (hfits : ∀ (i : Nat) (p : Param) (text : String), c.params[i]? = some p →
      args[i]? = some text → Fits days p.kind text) :
    Viable days nested (c.name :: args) := by
  have hkinds := builtin_kinds c hmem
  have hslots : ∀ p ∈ c.params, p.kind ≠ .subQuery := by
    simpa [Command.subQueryParams, List.filter_eq_nil_iff] using hflat
  refine ⟨(c.params.drop args.length).map fun p => sample p.kind, ?_, ?_⟩
  · intro text htext
    obtain ⟨p, -, rfl⟩ := List.mem_map.mp htext
    exact plain_sample p.kind
  · rw [List.cons_append, derives_flat_iff hmem hvisible hbare hflat]
    have hall : (args ++ (c.params.drop args.length).map fun p => sample p.kind).length =
        c.params.length := by
      simp only [List.length_append, List.length_map, List.length_drop]
      omega
    refine ⟨⟨?_, Nat.le_of_eq hall⟩, ?_⟩
    · rw [hall, ← Command.positional_eq_params hflat]
      exact List.length_filter_le ..
    · intro i p text hp htext
      by_cases hlt : i < args.length
      · rw [List.getElem?_append_left hlt] at htext
        exact hfits i p text hp htext
      · have hle := Nat.le_of_not_lt hlt
        rw [List.getElem?_append_right hle, List.getElem?_map, List.getElem?_drop,
          Nat.add_sub_cancel' hle, hp, Option.map_some, Option.some.injEq] at htext
        have hparam := List.mem_of_getElem? hp
        rw [← htext]
        exact fits_sample (hslots p hparam) (hkinds p hparam)

/-- One more text that fits its parameter leaves the texts viable. -/
theorem viable_of_derives_flat (hmem : c ∈ builtin.commands) (hvisible : c.visibleIn nested = true)
    (hbare : c.discriminant = none) (hflat : c.subQueryParams = []) {more : List String}
    (hderives : Derives days nested (c.name :: (args ++ more))) {p : Param} {text : String}
    (hp : c.params[args.length]? = some p) (hfits : Fits days p.kind text) :
    Viable days nested (c.name :: (args ++ [text])) := by
  obtain ⟨-, hall⟩ := (derives_flat_iff hmem hvisible hbare hflat).mp hderives
  obtain ⟨hlt, -⟩ := List.getElem?_eq_some_iff.mp hp
  refine viable_flat hmem hvisible hbare hflat ?_ ?_
  · rw [List.length_append, List.length_singleton]
    exact hlt
  · intro i q found hq hfound
    by_cases hi : i < args.length
    · rw [List.getElem?_append_left hi] at hfound
      exact hall i q found hq (by rw [List.getElem?_append_left hi, hfound])
    · have hle := Nat.le_of_not_lt hi
      rw [List.getElem?_append_right hle, List.getElem?_singleton] at hfound
      split at hfound
      · rename_i hzero
        obtain rfl : i = args.length := by omega
        obtain rfl := Option.some.inj hfound
        obtain rfl := Option.some.inj (hp.symm.trans hq)
        exact hfits
      · cases hfound

/-! Comparisons -/

/-- What a comparison with the archive may look like. -/
theorem top_of_comparison {word : String} {own : List Param} {slot : Param}
    (hmem : c ∈ builtin.commands) (houter : c.canSubQuery = false)
    (h : c.params = comparison word own [slot])
    (hown : ∀ p ∈ own, p.kind ≠ .subQuery ∧ p.optional = false) (hslot : slot.kind = .subQuery)
    (hfits : List.Forall₂ (fun p text => Fits days p.kind text) own args)
    (hsub : Sub days texts) : Top days (c.name :: word :: (args ++ texts)) := by
  obtain ⟨hnext, hfollows⟩ := (@comparison_iff days 0 false 0 c
    (tokensOf (word :: (args ++ texts))) word own slot h hown hslot).mpr
      ⟨args, texts, text_tokensOf _, hfits, hsub⟩
  have htop := top_of_follows hmem rfl houter (.inr hnext) hfollows
  rwa [text_tokensOf] at htop

theorem viable_comparison {word : String} {own : List Param} {slot : Param}
    (hmem : c ∈ builtin.commands) (houter : c.canSubQuery = false)
    (h : c.params = comparison word own [slot])
    (hown : ∀ p ∈ own, p.kind ≠ .subQuery ∧ p.optional = false) (hslot : slot.kind = .subQuery)
    (hfits : List.Forall₂ (fun p text => Fits days p.kind text) own args)
    (hviable : Viable days true texts) : Viable days false (c.name :: word :: (args ++ texts)) := by
  obtain ⟨more, hplain, hsub⟩ := hviable
  refine ⟨more, hplain, ?_⟩
  have htop : Top days _ := top_of_comparison hmem houter h hown hslot hfits hsub
  rwa [← List.append_assoc] at htop

theorem viable_left (hviable : Viable days true texts) :
    Viable days false ("compare" :: "dataset" :: texts) := by
  obtain ⟨more, hplain, hsub⟩ := hviable
  refine ⟨more ++ sampleSub, List.forall_mem_append.mpr ⟨hplain, plain_sampleSub⟩, ?_⟩
  have htop : Top days _ := .dataset hsub (sub_sampleSub days)
  rwa [List.append_assoc] at htop

theorem viable_right {left : List String} (hleft : Sub days left)
    (hviable : Viable days true texts) :
    Viable days false ("compare" :: "dataset" :: (left ++ texts)) := by
  obtain ⟨more, hplain, hsub⟩ := hviable
  refine ⟨more, hplain, ?_⟩
  have htop : Top days _ := .dataset hleft hsub
  rwa [← List.append_assoc] at htop

theorem Viable.of_append {more : List String} (hplain : ∀ text ∈ more, Plain text)
    (h : Viable days nested (texts ++ more)) : Viable days nested texts := by
  obtain ⟨rest, hrest, hderives⟩ := h
  refine ⟨more ++ rest, List.forall_mem_append.mpr ⟨hplain, hrest⟩, ?_⟩
  rwa [← List.append_assoc]

theorem viable_nil (days : Nat) : Viable days true [] :=
  ⟨sampleSub, plain_sampleSub, sub_sampleSub days⟩

theorem builtin_plain : ∀ c ∈ builtin.commands, ∀ word ∈ c.name :: c.discriminant.toList,
    Plain word := by
  decide

/-- A command word, with the word that tells its overloads apart, begins a query. -/
theorem viable_start (hmem : c ∈ builtin.commands) (hvisible : c.visibleIn nested = true) :
    Viable days nested (c.name :: c.discriminant.toList) := by
  cases hword : c.discriminant with
  | none =>
    exact viable_flat hmem hvisible hword (builtin_bare c hmem hword) (Nat.zero_le _) (by simp)
  | some word =>
    obtain ⟨hname, houter, hparams⟩ := builtin_comparison hmem hword
    obtain rfl : nested = false := by simpa [Command.visibleIn, houter] using hvisible
    rcases hparams with ⟨own, slot, hparams, hown, -, hslot⟩ | ⟨-, rfl⟩
    · have hsample : List.Forall₂ (fun p text => Fits days p.kind text) own
          (own.map fun p => sample p.kind) := by
        rw [List.forall₂_map_right_iff, List.forall₂_same]
        intro p hp
        refine fits_sample (hown p hp).1 (builtin_kinds c hmem p ?_)
        simp [hparams, comparison, hp]
      have hviable := viable_comparison hmem houter hparams hown hslot hsample (viable_nil days)
      rw [List.append_nil] at hviable
      have hplain : ∀ text ∈ own.map fun p => sample p.kind, Plain text := by
        intro text htext
        obtain ⟨p, -, rfl⟩ := List.mem_map.mp htext
        exact plain_sample p.kind
      exact @Viable.of_append days false [c.name, word] _ hplain hviable
    · rw [hname]
      exact viable_left (viable_nil days)

/-! Command words and arguments -/

/-- What starts with a command word has the first character of one, and is longer than a place. -/
theorem head_of_word {text word : String} (hword : word ∈ commandWords)
    (h : word.toList <+: text.toList) :
    2 < text.length ∧ ∃ ch, text.toList.head? = some ch ∧ ch.isDigit = false ∧ ch ≠ '`' := by
  have hwords : ∀ word ∈ commandWords, 2 < word.toList.length ∧
      (word.toList.head?.any fun ch => !ch.isDigit && ch ≠ '`') = true := by
    decide
  obtain ⟨hlong, hfirst⟩ := hwords word hword
  obtain ⟨more, hmore⟩ := h
  obtain ⟨ch, hhead, hch⟩ : ∃ ch, word.toList.head? = some ch ∧
      (!ch.isDigit && ch ≠ '`') = true := by
    cases hhead : word.toList.head? with
    | none => simp [hhead] at hfirst
    | some ch => exact ⟨ch, rfl, by simpa [hhead] using hfirst⟩
  rw [← String.length_toList, ← hmore]
  refine ⟨?_, ch, ?_, by simpa using hch⟩
  · rw [List.length_append]
    exact Nat.lt_add_right _ hlong
  · rw [List.head?_append, hhead, Option.some_or]

theorem not_word_of_isRow {text word : String} (h : IsRow text) (hword : word ∈ commandWords) :
    ¬ word.toList <+: text.toList := by
  intro hstarts
  obtain ⟨-, ch, hhead, -, hne⟩ := head_of_word hword hstarts
  exact hne (Option.some.inj (hhead.symm.trans h.2.1))

theorem not_word_of_isDate {text word : String} (h : IsDate days text)
    (hword : word ∈ commandWords) : ¬ word.toList <+: text.toList := by
  intro hstarts
  obtain ⟨hlong, ch, hhead, hdigit, -⟩ := head_of_word hword hstarts
  rcases h with ⟨hshort, -⟩ | ⟨-, hiso⟩
  · omega
  · obtain ⟨-, -, first, hfirst, hnumeral⟩ := of_isIsoDate hiso
    obtain rfl := Option.some.inj (hhead.symm.trans hfirst)
    rw [hdigit] at hnumeral
    cases hnumeral

/-- No argument of a sub-query starts with a command word. -/
theorem Sub.not_word {head : String} (h : Sub days (head :: args)) {text : String}
    (htext : text ∈ args) {word : String} (hword : word ∈ commandWords) :
    ¬ word.toList <+: text.toList := by
  cases h with
  | aggregate _ hargs =>
    obtain ⟨row, dates, rfl, hrow, -, hdates⟩ := days_iff.mp hargs
    rcases List.mem_cons.mp htext with rfl | htext
    · exact not_word_of_isRow hrow hword
    · exact not_word_of_isDate (hdates text htext) hword
  | value hrow hday =>
    rcases List.mem_cons.mp htext with rfl | htext
    · exact not_word_of_isRow hrow hword
    · obtain rfl := List.mem_singleton.mp htext
      exact not_word_of_isDate hday hword

end Grammar

end Almanac
