import Almanac.Evaluation.Basic
import Almanac.Proofs.Decimal.Integer
import Almanac.Proofs.Query.Conformance
import Almanac.Proofs.Query.Extent
import Almanac.Proofs.Query.Listing

/-!
Queries as JSON. A query that was read from a line is decoded as it was encoded, however deep it is
nested: what the encoder leaves out is restored, a number is finite and a place among the days is
small. Its text is read back as well, as long as the reader may open as many brackets and the texts
of the numbers stand for them.
-/

namespace Almanac

/-! Values of arguments -/

namespace DateToken

def Encodable : DateToken → Prop
  | index place => -(Json.wordLimit : Int) ≤ 2 * place ∧ 2 * place < Json.wordLimit
  | iso _ => True

theorem Encodable.ofJson?_toJson {token : DateToken} (h : token.Encodable) :
    ofJson? token.toJson = some token := by
  cases token with
  | iso date => rfl
  | index place =>
    have hplace : (Json.int place).toInt? = some place := if_pos h.2
    show (Json.int place).toInt?.map index = some (index place)
    rw [hplace, Option.map_some]

theorem Encodable.fits {token : DateToken} (h : token.Encodable) (depth : Nat) :
    token.toJson.Fits (depth + 1) := by
  cases token with
  | iso date => exact .record (by simp [Json.Fits.text])
  | index place =>
    have hplace : (Json.int place).Fits depth := .int h.1 (by have := h.2; omega)
    exact .record (by simp [Json.Fits.text, hplace])

end DateToken

namespace ArgumentValue

/-- A value that JSON has a form for: a number is finite. -/
def Encodable : ArgumentValue → Prop
  | number x => x.isFinite = true
  | date token => token.Encodable
  | _ => True

/-- A number is the one that its text stands for. -/
def NumberReadsBack : ArgumentValue → Prop
  | number x => Json.ReadsBack x
  | _ => True

variable {value : ArgumentValue}

theorem Encodable.ofJson?_toJson (h : value.Encodable) : ofJson? value.toJson = some value := by
  cases value with
  | row name => rfl
  | text content => rfl
  | enum word => rfl
  | date token =>
    show (DateToken.ofJson? token.toJson).map date = some (date token)
    rw [DateToken.Encodable.ofJson?_toJson h, Option.map_some]
  | number x =>
    have hx : Json.ofFloat x = .real x := if_pos h
    show (Json.ofFloat x).toFloat?.map number = some (number x)
    rw [hx]
    rfl

theorem Encodable.fits (h : value.Encodable) (hnumber : value.NumberReadsBack) (depth : Nat) :
    value.toJson.Fits (depth + 2) := by
  cases value with
  | row name => exact .record (by simp [Json.Fits.text])
  | text content => exact .record (by simp [Json.Fits.text])
  | enum word => exact .record (by simp [Json.Fits.text])
  | date token =>
    have htoken : token.toJson.Fits (depth + 1) := DateToken.Encodable.fits h depth
    exact .record (by simp [Json.Fits.text, htoken])
  | number x =>
    have hx : (Json.ofFloat x).Fits (depth + 1) := by
      rw [Json.ofFloat_of_readsBack hnumber]
      exact .real hnumber
    exact .record (by simp [Json.Fits.text, hx])

/-- A text stands for a value that can be encoded. -/
theorem encodable_of_stands {days : Nat} {kind : ParamKind} {raw : String}
    (h : Argument.Stands days kind raw value) : value.Encodable := by
  cases h with
  | row | text | enum | iso => trivial
  | int _ hfinite => exact hfinite
  | number _ hfinite => exact hfinite
  | @place _ place hshort hread =>
    have hlt := Decimal.natAbs_lt_of_readInteger? hread
    have hlength : raw.toList.length ≤ 2 := by
      rw [String.length_toList]
      omega
    have hsmall := Decimal.tenTo_le hlength
    have hlimit : Decimal.tenTo 2 * 2 ≤ Json.wordLimit := by decide
    show -(Json.wordLimit : Int) ≤ 2 * place ∧ 2 * place < Json.wordLimit
    omega

end ArgumentValue

namespace Argument

variable {a : Argument}

theorem ofJson?_toJson (h : a.value.Encodable) : ofJson? a.toJson = some a := by
  have hkind : ParamKind.ofJson? (.text a.kind.word) = some a.kind :=
    congrArg some (ParamKind.ofWord_word a.kind)
  have hfields : ofJson? a.toJson =
      (ParamKind.ofJson? (.text a.kind.word)).bind fun kind =>
        (ArgumentValue.ofJson? a.value.toJson).bind fun value =>
          (Span.ofJson? a.span.toJson).bind fun span =>
            some ⟨a.name, kind, value, a.raw, span⟩ := rfl
  rw [hfields, hkind, Option.bind_some, h.ofJson?_toJson, Option.bind_some, Span.ofJson?_toJson,
    Option.bind_some]

theorem fits_toJson (h : a.value.Encodable) (hnumber : a.value.NumberReadsBack)
    (hspan : a.span.Storable) (depth : Nat) : a.toJson.Fits (depth + 3) := by
  have hvalue : a.value.toJson.Fits (depth + 2) := h.fits hnumber depth
  have hplace : a.span.toJson.Fits (depth + 2) := hspan.fits (depth + 1)
  exact .record (by simp [Json.Fits.text, hvalue, hplace])

end Argument

namespace Query

mutual

/-- The levels of a tree, a query without sub-queries having one. -/
def levels : Query → Nat
  | ⟨_, _, _, subQueries, _⟩ => levelsOfAll subQueries + 1

def levelsOfAll : List Query → Nat
  | [] => 0
  | q :: rest => Nat.max (levels q) (levelsOfAll rest)

end

theorem levelsOfAll_le_iff {qs : List Query} {n : Nat} :
    levelsOfAll qs ≤ n ↔ ∀ q ∈ qs, q.levels ≤ n := by
  induction qs with
  | nil => simp [levelsOfAll]
  | cons q rest ih => rw [levelsOfAll, Nat.max_le, ih, List.forall_mem_cons]

theorem levels_eq (q : Query) : q.levels = levelsOfAll q.subQueries + 1 := by
  cases q
  rw [levels]

theorem toJsonList_eq (qs : List Query) : toJsonList qs = qs.map toJson := by
  induction qs with
  | nil => rfl
  | cons q rest ih => rw [toJsonList, ih, List.map_cons]

def fields (q : Query) : List (String × Json) :=
  [("command", .text q.command)] ++ Json.fieldIfSome "variant" .text q.variant ++
    [("args", .list (q.args.map Argument.toJson))] ++
    (if q.subQueries = [] then [] else [("sub_queries", .list (q.subQueries.map toJson))]) ++
    [("span", q.span.toJson)]

theorem toJson_eq (q : Query) : q.toJson = .record q.fields := by
  obtain ⟨command, variant, args, subQueries, span⟩ := q
  rw [toJson, toJsonList_eq]
  cases subQueries <;> rfl

theorem variant_mem_fields_iff {q : Query} :
    "variant" ∈ q.fields.map Prod.fst ↔ q.variant ≠ none := by
  obtain ⟨command, variant, args, subQueries, span⟩ := q
  cases variant <;> cases subQueries <;> simp [fields, Json.fieldIfSome]

theorem subQueries_mem_fields_iff {q : Query} :
    "sub_queries" ∈ q.fields.map Prod.fst ↔ q.subQueries ≠ [] := by
  obtain ⟨command, variant, args, subQueries, span⟩ := q
  cases variant <;> cases subQueries <;> simp [fields, Json.fieldIfSome]

def Encodable (q : Query) : Prop := ∀ s ∈ q.nodes, ∀ a ∈ s.args, a.value.Encodable

theorem Encodable.here {q : Query} (h : q.Encodable) : ∀ a ∈ q.args, a.value.Encodable :=
  h q (mem_nodes_iff.mpr (.inl rfl))

theorem Encodable.below {q : Query} (h : q.Encodable) : ∀ sub ∈ q.subQueries, sub.Encodable :=
  fun sub hsub s hs => h s (mem_nodes_iff.mpr (.inr ⟨sub, hsub, hs⟩))

/-- What is left out is restored: no variant and no sub-queries. -/
theorem ofJsonWithin?_succ (n : Nat) (q : Query) :
    ofJsonWithin? (n + 1) q.toJson =
      (Json.toList? Argument.ofJson? (.list (q.args.map Argument.toJson))).bind fun args =>
        (Json.toList? (ofJsonWithin? n) (.list (q.subQueries.map toJson))).bind fun subQueries =>
          (Span.ofJson? q.span.toJson).bind fun span =>
            some ⟨q.command, q.variant, args, subQueries, span⟩ := by
  obtain ⟨command, variant, args, subQueries, span⟩ := q
  rw [toJson_eq]
  cases variant <;> cases subQueries <;> rfl

/-- A tree is decoded as it was encoded by a decoder that goes down far enough. -/
theorem Encodable.ofJsonWithin?_toJson {q : Query} {n : Nat} (h : q.Encodable)
    (hlevels : q.levels ≤ n) : ofJsonWithin? n q.toJson = some q := by
  induction q using induct generalizing n with
  | node q ih =>
    rw [levels_eq] at hlevels
    obtain ⟨n, rfl⟩ : ∃ m, n = m + 1 := ⟨n - 1, by omega⟩
    have hbelow := levelsOfAll_le_iff.mp (Nat.le_of_succ_le_succ hlevels)
    have hargs : Json.toList? Argument.ofJson? (.list (q.args.map Argument.toJson)) =
        some q.args := Json.toList?_map fun a ha => Argument.ofJson?_toJson (h.here a ha)
    have hsubs : Json.toList? (ofJsonWithin? n) (.list (q.subQueries.map toJson)) =
        some q.subQueries :=
      Json.toList?_map fun sub hsub => ih sub hsub (h.below sub hsub) (hbelow sub hsub)
    rw [ofJsonWithin?_succ, hargs, Option.bind_some, hsubs, Option.bind_some, Span.ofJson?_toJson,
      Option.bind_some]
    cases q
    rfl

theorem levels_le_depth (q : Query) : q.levels ≤ q.toJson.depth := by
  induction q using induct with
  | node q ih =>
    rw [levels_eq, toJson_eq, Json.depth, Nat.add_le_add_iff_right, levelsOfAll_le_iff]
    intro sub hsub
    have hfield : ("sub_queries", Json.list (q.subQueries.map toJson)) ∈ q.fields := by
      have hne : q.subQueries ≠ [] := List.ne_nil_of_mem hsub
      simp [fields, hne]
    calc
      sub.levels ≤ sub.toJson.depth := ih sub hsub
      _ ≤ Json.depthItems (q.subQueries.map toJson) :=
        Json.depth_le_depthItems (List.mem_map_of_mem hsub)
      _ ≤ (Json.list (q.subQueries.map toJson)).depth := Nat.le_succ _
      _ ≤ Json.depthFields q.fields := Json.depth_le_depthFields hfield

theorem Encodable.ofJson?_toJson {q : Query} (h : q.Encodable) : ofJson? q.toJson = some q :=
  h.ofJsonWithin?_toJson q.levels_le_depth

/-- A query fits one bracket deeper than its fields do. -/
theorem fits_toJson_of_fields {q : Query} {depth : Nat}
    (hargs : (Json.list (q.args.map Argument.toJson)).Fits depth)
    (hsubs : (Json.list (q.subQueries.map toJson)).Fits depth) (hspan : q.span.toJson.Fits depth) :
    q.toJson.Fits (depth + 1) := by
  have hvariant : ∀ field ∈ Json.fieldIfSome "variant" .text q.variant, field.2.Fits depth :=
    Json.fits_of_mem_fieldIfSome fun word _ => .text word
  rw [toJson_eq]
  refine .record fun field hfield => ?_
  simp only [fields, List.mem_append, List.mem_singleton] at hfield
  obtain (((rfl | hmem) | rfl) | hmem) | rfl := hfield
  · exact .text q.command
  · exact hvariant field hmem
  · exact hargs
  · split at hmem
    · cases hmem
    · obtain rfl := List.mem_singleton.mp hmem
      exact hsubs
  · exact hspan

/-- Every level opens a list and a record, and an argument may open four brackets more. -/
theorem Encodable.fits_toJson {q : Query} {n : Nat} (h : q.Encodable) (hlevels : q.levels ≤ n + 1)
    (hnumbers : ∀ s ∈ q.nodes, ∀ a ∈ s.args, a.value.NumberReadsBack)
    (hspans : ∀ s ∈ q.nodes, s.span.Storable ∧ ∀ a ∈ s.args, a.span.Storable) :
    q.toJson.Fits (2 * n + 5) := by
  induction q using induct generalizing n with
  | node q ih =>
    have hroot : q ∈ q.nodes := mem_nodes_iff.mpr (.inl rfl)
    have hargs : (Json.list (q.args.map Argument.toJson)).Fits (2 * n + 4) :=
      .list_map fun a ha => Argument.fits_toJson (h.here a ha) (hnumbers q hroot a ha)
        ((hspans q hroot).2 a ha) (2 * n)
    refine fits_toJson_of_fields hargs ?_ ((hspans q hroot).1.fits (2 * n + 3))
    show (Json.list (q.subQueries.map toJson)).Fits (2 * n + 4)
    refine .list_map fun sub hsub => ?_
    have hnodes {s : Query} (hs : s ∈ sub.nodes) : s ∈ q.nodes :=
      mem_nodes_iff.mpr (.inr ⟨sub, hsub, hs⟩)
    have hsublevels : sub.levels ≤ n := by
      rw [levels_eq] at hlevels
      exact levelsOfAll_le_iff.mp (Nat.le_of_succ_le_succ hlevels) sub hsub
    obtain ⟨m, rfl⟩ : ∃ m, n = m + 1 := by
      rw [levels_eq] at hsublevels
      exact ⟨n - 1, by omega⟩
    exact ih sub hsub (h.below sub hsub) hsublevels (fun s hs => hnumbers s (hnodes hs))
      fun s hs => hspans s (hnodes hs)

/-! What is read from a line -/

section

variable {table : CommandTable} {days : Nat} {nested : Bool} {line : String} {q : Query}

/-- Only what JSON has a form for stands in a query that was read. -/
theorem encodable_of_parse (hsound : table.check = .ok ())
    (h : parse table days nested line = .ok q) : q.Encodable := by
  have hcalls {nested : Bool} {s : Query} (hs : s.CallsFrom table days nested) :
      ∀ a ∈ s.args, a.value.Encodable := by
    obtain ⟨c, _, _, hconforms⟩ := hs
    exact fun a ha => ArgumentValue.encodable_of_stands (hconforms.values a ha)
  obtain ⟨hroot, hbelow⟩ := callsFrom_of_ofTokens hsound h
  exact forall_nodes (hcalls hroot) fun sub hsub s hs => hcalls (hbelow sub hsub s hs)

theorem spans_within_of_parse (h : parse table days nested line = .ok q) :
    ∀ s ∈ q.nodes, s.span.Within (Text.byteLength line) ∧
      ∀ a ∈ s.args, a.span.Within (Text.byteLength line) := by
  have hnodes : q.AllWithin (Text.byteLength line) := by
    have hyields := within_parse table days nested line
    rwa [h] at hyields
  obtain ⟨htokens, hlaid⟩ := tokens_of_ofTokens h (Token.pairwise_tokenize line)
  intro s hs
  refine ⟨hnodes s hs, fun a ha => ?_⟩
  have hmem : a.token ∈ s.tokens := by
    rw [tokens_eq]
    exact List.mem_cons_of_mem _ (List.mem_append_left _ (List.mem_map_of_mem ha))
  rw [(hlaid s hs).args_span a ha]
  apply Token.within_of_mem_tokenize
  rw [← htokens]
  exact (tokens_infix_of_mem_nodes hs).subset hmem

def toPrettyJson (q : Query) : String := q.toJson.pretty

def ofText? (text : String) : Option Query := (Json.parse? text).bind ofJson?

/-- A query that was read from a line is encoded without loss. Throughout the tree a variant is
written if there is one and sub-queries if there are some, and all of it is decoded again, however
deep. So whenever the reader of texts undoes the writer, the query is read from its text, and it
asks and answers the same. The reader does so for all trees whose brackets it can open, given
that the text of every number stands for it. -/
theorem ofText?_toPrettyJson (hsound : table.check = .ok ())
    (h : parse table days nested line = .ok q) :
    (∀ s ∈ q.nodes, ∃ fields, s.toJson = .record fields ∧
      ("variant" ∈ fields.map Prod.fst ↔ s.variant ≠ none) ∧
      ("sub_queries" ∈ fields.map Prod.fst ↔ s.subQueries ≠ [])) ∧
    ofJson? q.toJson = some q ∧
    (Json.parse? q.toPrettyJson = some q.toJson →
      ofText? q.toPrettyJson = some q ∧
      ∀ (env : Environment) (print : Bool),
        (ofText? q.toPrettyJson).map (env.evaluate print) = some (env.evaluate print q)) ∧
    (q.levels ≤ 62 → Text.byteLength line < Json.wordLimit →
      (∀ s ∈ q.nodes, ∀ a ∈ s.args, a.value.NumberReadsBack) →
        Json.parse? q.toPrettyJson = some q.toJson) := by
  have hencodable := encodable_of_parse hsound h
  have hdecoded : ofJson? q.toJson = some q := hencodable.ofJson?_toJson
  refine ⟨fun s _ => ⟨s.fields, s.toJson_eq, variant_mem_fields_iff, subQueries_mem_fields_iff⟩,
    hdecoded, fun hlayer => ?_, fun hlevels hline hnumbers => ?_⟩
  · have hread : ofText? q.toPrettyJson = some q := by
      rw [ofText?, hlayer, Option.bind_some, hdecoded]
    exact ⟨hread, fun env print => by rw [hread, Option.map_some]⟩
  · have hspans : ∀ s ∈ q.nodes, s.span.Storable ∧ ∀ a ∈ s.args, a.span.Storable := by
      intro s hs
      obtain ⟨hspan, hargs⟩ := spans_within_of_parse h s hs
      exact ⟨hspan.storable hline, fun a ha => (hargs a ha).storable hline⟩
    have hfits : q.toJson.Fits 127 := hencodable.fits_toJson hlevels hnumbers hspans
    exact Json.parse?_pretty hfits

def coordLine : String := "compare coord 47.5 -3 max `t` 0 -1"

def coordQuery : Query where
  command := "compare"
  variant := some "coord"
  args :=
    [⟨"location type", .enum, .enum "coord", "coord", ⟨8, 13⟩⟩,
      ⟨"latitude", .number, .number 47.5, "47.5", ⟨14, 18⟩⟩,
      ⟨"longitude", .number, .number (-3), "-3", ⟨19, 21⟩⟩]
  subQueries :=
    [⟨"max", none,
      [⟨"row", .row, .row "t", "`t`", ⟨26, 29⟩⟩,
        ⟨"start", .date, .date (.index 0), "0", ⟨30, 31⟩⟩,
        ⟨"end", .date, .date (.index (-1)), "-1", ⟨32, 34⟩⟩], [], ⟨22, 34⟩⟩]
  span := ⟨0, 34⟩

theorem ofText?_toPrettyJson_coordLine :
    CommandTable.builtin.check = .ok () ∧
      parse CommandTable.builtin 2 false coordLine = .ok coordQuery ∧
      ofText? coordQuery.toPrettyJson = some coordQuery := by
  have hsound : CommandTable.builtin.check = .ok () := by decide
  have htokens : tokenize coordLine =
      [⟨"compare", 0⟩, ⟨"coord", 8⟩, ⟨"47.5", 14⟩, ⟨"-3", 19⟩, ⟨"max", 22⟩, ⟨"`t`", 26⟩,
        ⟨"0", 30⟩, ⟨"-1", 32⟩] := by
    decide +kernel
  have hsub : ofTokens CommandTable.builtin 2 34 true
      [⟨"max", 22⟩, ⟨"`t`", 26⟩, ⟨"0", 30⟩, ⟨"-1", 32⟩] = .ok coordQuery.subQueries[0] :=
    ofTokens_cons_eq_ok_iff.mpr ⟨CommandTable.builtin.commands[4], _, [], [],
      ⟨rfl, by decide, rfl, by decide +kernel⟩, .nil, rfl⟩
  have hparse : parse CommandTable.builtin 2 false coordLine = .ok coordQuery := by
    rw [parse, htokens]
    exact ofTokens_cons_eq_ok_iff.mpr ⟨CommandTable.builtin.commands[8], _, _, _,
      ⟨rfl, by decide, rfl, by decide +kernel⟩, .cons hsub .nil, rfl⟩
  have hlatitude : Json.ReadsBack 47.5 := by
    have htext : Json.scalar (.real 47.5) = "47.5" := by decide +kernel
    exact Json.readsBack_of_numeral (n := ⟨false, ['4', '7'], ['5'], 0, false⟩)
      (by rw [htext]; rfl) rfl (by decide +kernel)
  have hlongitude : Json.ReadsBack (-3) := by
    have htext : Json.scalar (.real (-3)) = "-3.0" := by decide +kernel
    exact Json.readsBack_of_numeral (n := ⟨true, ['3'], ['0'], 0, false⟩)
      (by rw [htext]; rfl) rfl (by decide +kernel)
  have hnumbers : ∀ s ∈ coordQuery.nodes, ∀ a ∈ s.args, a.value.NumberReadsBack := by
    simp [coordQuery, nodes, nodesOfAll, ArgumentValue.NumberReadsBack, hlatitude, hlongitude]
  obtain ⟨-, -, hread, hlayer⟩ := ofText?_toPrettyJson hsound hparse
  exact ⟨hsound, hparse, (hread (hlayer (by decide) (by decide) hnumbers)).1⟩

end

end Query

end Almanac
