import Almanac.Proofs.Json.Decoding
import Almanac.Proofs.Table.Params

/-!
A command table survives being written. What its written form leaves out, the reader fills in as
it was, and a kind that nothing can check is written as a word that names no other kind. The
reader checks the version and the commands again, which a table that was read has passed before.
-/

namespace Almanac

namespace Param

theorem ofJson?_toJson (p : Param) : ofJson? p.toJson = some p := by
  obtain ⟨name, kind, optional, value⟩ := p
  have hkind : ParamKind.ofJson? (.text kind.word) = some kind :=
    congrArg some (ParamKind.ofWord_word kind)
  have hfields : ofJson? (toJson ⟨name, kind, optional, value⟩) =
      (ParamKind.ofJson? (.text kind.word)).bind fun kind =>
        some ⟨name, kind, optional, value⟩ := by
    cases value <;> rfl
  rw [hfields, hkind, Option.bind_some]

theorem fits_toJson (p : Param) (depth : Nat) : p.toJson.Fits (depth + 1) := by
  refine .record (List.forall_mem_append.mpr ⟨?_, ?_⟩)
  · simp [Json.Fits.text, Json.Fits.bool]
  · exact Json.fits_of_mem_fieldIfSome fun word _ => .text word

end Param

namespace Command

theorem ofJson?_toJson (c : Command) : ofJson? c.toJson = some c := by
  have hparams : Json.toList? Param.ofJson? (.list (c.params.map Param.toJson)) = some c.params :=
    Json.toList?_map fun p _ => p.ofJson?_toJson
  have hfields : ofJson? c.toJson =
      (Json.toList? Param.ofJson? (.list (c.params.map Param.toJson))).bind fun params =>
        some ⟨c.name, c.description, c.canSubQuery, params⟩ := rfl
  rw [hfields, hparams, Option.bind_some]

theorem fits_toJson (c : Command) (depth : Nat) : c.toJson.Fits (depth + 3) := by
  have hparams : (Json.list (c.params.map Param.toJson)).Fits (depth + 2) :=
    .list_map fun p _ => p.fits_toJson depth
  exact .record (by simp [Json.Fits.text, Json.Fits.bool, hparams])

end Command

namespace CommandTable

variable {t : CommandTable} {text : String}

theorem ofJson?_toJson (t : CommandTable) : ofJson? t.toJson = some t := by
  have hcommands : Json.toList? Command.ofJson? (.list (t.commands.map Command.toJson)) =
      some t.commands := Json.toList?_map fun c _ => c.ofJson?_toJson
  have hfields : ofJson? t.toJson =
      (Json.toList? Command.ofJson? (.list (t.commands.map Command.toJson))).bind fun commands =>
        some ⟨t.version, commands⟩ := rfl
  rw [hfields, hcommands, Option.bind_some]

theorem fits_toJson (t : CommandTable) (depth : Nat) : t.toJson.Fits (depth + 5) := by
  have hcommands : (Json.list (t.commands.map Command.toJson)).Fits (depth + 4) :=
    .list_map fun c _ => c.fits_toJson depth
  exact .record (by simp [Json.Fits.text, hcommands])

theorem ofJson_eq_ok_iff {json : Json} :
    ofJson json = .ok t ↔
      ofJson? json = some t ∧ majorVersion t.version = majorVersion formatVersion ∧
        t.check = .ok () := by
  rw [ofJson]
  cases hread : ofJson? json with
  | none => simp
  | some found =>
    simp only [ne_eq, ite_not, Option.some.injEq]
    constructor
    · intro h
      split at h
      · rename_i hversion
        split at h
        · cases h
        · rename_i hcheck
          cases h
          exact ⟨rfl, hversion, hcheck⟩
      · cases h
    · rintro ⟨rfl, hversion, hcheck⟩
      rw [if_pos hversion, hcheck]

/-- The written form of a table is read back exactly when a table like it could be read at all. -/
theorem parse_toPrettyJson_iff :
    parse t.toPrettyJson = .ok t ↔
      majorVersion t.version = majorVersion formatVersion ∧ t.check = .ok () := by
  have hparse : Json.parse? t.toPrettyJson = some t.toJson := Json.parse?_pretty (t.fits_toJson 122)
  rw [parse, hparse]
  dsimp only
  rw [ofJson_eq_ok_iff]
  simp [ofJson?_toJson]

/-- A table that was read, whatever kinds its parameters are of, is read again from what it is
written as. -/
theorem parse_toPrettyJson (h : parse text = .ok t) : parse t.toPrettyJson = .ok t := by
  rw [parse] at h
  split at h
  · cases h
  · obtain ⟨-, hsound⟩ := ofJson_eq_ok_iff.mp h
    exact parse_toPrettyJson_iff.mpr hsound

def ofWind : CommandTable :=
  ⟨"1.4",
    [⟨"gust", "Peak", true,
        [.required "at" .row, .required "speed" .unsupported, .omittable "day" .date]⟩,
      ⟨"rate", "", false,
        [.leading "mode" "peak", .required "limit" .number, .required "gust" .subQuery]⟩]⟩

/-- The reader fills in what the text leaves out, and the word for the unknown kind is lost. A
parameter may be written as a list of its fields. -/
def windText : String :=
  "\x7b\"formatVersion\":\"1.4\",\"commands\":[" ++
    "\x7b\"name\":\"gust\",\"description\":\"Peak\",\"canSubQuery\":true,\"params\":[" ++
    "\x7b\"name\":\"at\",\"type\":\"row\"\x7d,[\"speed\",\"wind\"],[\"day\",\"date\",true]]\x7d," ++
    "\x7b\"name\":\"rate\",\"description\":\"\",\"params\":[" ++
    "[\"mode\",\"enum\",false,\"peak\"],[\"limit\",\"number\",false,null]," ++
    "\x7b\"name\":\"gust\",\"type\":\"subquery\"\x7d]\x7d]\x7d"

theorem parse_toPrettyJson_ofWind :
    parse windText = .ok ofWind ∧ parse ofWind.toPrettyJson = .ok ofWind := by
  have hread : parse windText = .ok ofWind := by decide +kernel
  exact ⟨hread, parse_toPrettyJson hread⟩

end CommandTable

end Almanac
