import Almanac.History
import Almanac.Proofs.Keyed
import Almanac.Proofs.Span

/-!
What a history file can hold. An output is decoded as it was encoded when its positions and its
weather code fit into a machine word, its details stand in the order of their keys and its
numbers are the ones that their texts stand for.
-/

namespace Almanac

namespace Diagnostic

/-- The place of a diagnostic fits into machine words, and its details are in key order. -/
structure Storable (d : Diagnostic) : Prop where
  span : ∀ s ∈ d.span, s.Storable
  context : ∀ entries ∈ d.context, Keyed.Ordered (entries.map Prod.fst)

theorem toEntries?_contextJson (entries : List (String × String)) :
    Json.toEntries? Json.toText? (contextJson entries) = some (Keyed.ofList entries) := by
  have hentries : (entries.map fun entry => (entry.1, Json.text entry.2)).mapM
      (fun field => field.2.toText?.map fun value => (field.1, value)) = some entries :=
    mapM_map_eq_some fun _ _ => rfl
  rw [contextJson, Json.toEntries?, hentries, Option.map_some]

theorem Storable.ofJson?_toJson {d : Diagnostic} (h : d.Storable) : ofJson? d.toJson = some d := by
  obtain ⟨id, severity, message, span, context⟩ := d
  have hfields : ofJson? (toJson ⟨id, severity, message, span, context⟩) =
      ((Json.text severity.word).toWord?.bind Severity.ofWord?).bind fun severity =>
        (span.elim (some none) fun s => (Span.ofJson? s.toJson).map some).bind fun span =>
          (context.elim (some none) fun entries =>
            (Json.toEntries? Json.toText? (contextJson entries)).map some).bind fun context =>
              some ⟨id, severity, message, span, context⟩ := by
    cases span <;> cases context <;> rfl
  have hseverity : (Json.text severity.word).toWord?.bind Severity.ofWord? = some severity := by
    cases severity <;> rfl
  have hspan : (span.elim (some none) fun s => (Span.ofJson? s.toJson).map some) = some span := by
    cases span with
    | none => rfl
    | some s => rw [Option.elim_some, Span.ofJson?_toJson, Option.map_some]
  have hcontext : (context.elim (some none) fun entries =>
      (Json.toEntries? Json.toText? (contextJson entries)).map some) = some context := by
    cases context with
    | none => rfl
    | some entries =>
      rw [Option.elim_some, toEntries?_contextJson,
        Keyed.ofList_of_ordered (h.context entries rfl), Option.map_some]
  rw [hfields, hseverity, Option.bind_some, hspan, Option.bind_some, hcontext, Option.bind_some]

theorem Storable.fits {d : Diagnostic} (h : d.Storable) (depth : Nat) :
    d.toJson.Fits (depth + 2) := by
  have hspan : ∀ s ∈ d.span, (Span.toJson s).Fits (depth + 1) := fun s hs =>
    (h.span s hs).fits depth
  have hcontext : ∀ entries ∈ d.context, (contextJson entries).Fits (depth + 1) := by
    intro entries _
    refine .record fun field hfield => ?_
    obtain ⟨entry, _, rfl⟩ := List.mem_map.mp hfield
    exact .text entry.2
  refine .record (List.forall_mem_append.mpr ⟨List.forall_mem_append.mpr ⟨?_, ?_⟩, ?_⟩)
  · simp [Json.Fits.text]
  · exact Json.fits_of_mem_fieldIfSome hspan
  · exact Json.fits_of_mem_fieldIfSome hcontext

end Diagnostic

theorem Bar.ofJson?_toJson {bar : Bar} (h : Json.ReadsBack bar.value) :
    Bar.ofJson? bar.toJson = some bar := by
  rw [Bar.toJson, Json.ofFloat_of_readsBack h]
  rfl

theorem Bar.fits_toJson {bar : Bar} (h : Json.ReadsBack bar.value) (depth : Nat) :
    bar.toJson.Fits (depth + 1) := by
  rw [Bar.toJson, Json.ofFloat_of_readsBack h]
  exact .record (by simp [Json.Fits.text, Json.Fits.real h])

theorem Grid.ofJson?_toJson (grid : Grid) : Grid.ofJson? grid.toJson = some grid := by
  have hrows : Json.toList? (Json.toList? Json.toText?) (.list (grid.rows.map Json.ofTexts)) =
      some grid.rows := Json.toList?_map fun row _ => Json.toTexts?_ofTexts row
  have hfields : Grid.ofJson? grid.toJson =
      (Json.toList? Json.toText? (Json.ofTexts grid.headers)).bind fun headers =>
        (Json.toList? (Json.toList? Json.toText?) (.list (grid.rows.map Json.ofTexts))).bind
          fun rows => some ⟨headers, rows⟩ := rfl
  rw [hfields, Json.toTexts?_ofTexts, Option.bind_some, hrows, Option.bind_some]

theorem Grid.fits_toJson (grid : Grid) (depth : Nat) : grid.toJson.Fits (depth + 3) := by
  have hheaders : (Json.ofTexts grid.headers).Fits (depth + 2) := Json.fits_ofTexts _
  have hrows : (Json.list (grid.rows.map Json.ofTexts)).Fits (depth + 2) :=
    .list_map fun row _ => Json.fits_ofTexts row
  exact .record (by simp [hheaders, hrows])

theorem HelpEntry.ofJson?_toJson (entry : HelpEntry) :
    HelpEntry.ofJson? entry.toJson = some entry := rfl

theorem HelpEntry.fits_toJson (entry : HelpEntry) (depth : Nat) :
    entry.toJson.Fits (depth + 1) := .record (by simp [Json.Fits.text])

namespace Output

def Storable : Output → Prop
  | histogram _ _ bars => ∀ bar ∈ bars, Json.ReadsBack bar.value
  | weatherCode code _ => -(Json.wordLimit : Int) ≤ 2 * code ∧ 2 * code < Json.wordLimit
  | error _ diagnostic => diagnostic.Storable
  | _ => True

theorem Storable.fits {output : Output} (h : output.Storable) (depth : Nat) :
    output.toJson.Fits (depth + 4) := by
  cases output with
  | echo line => exact .record (by simp [Json.Fits.text])
  | text content => exact .record (by simp [Json.Fits.text])
  | table grid => exact .record (by simp [Json.Fits.text, grid.fits_toJson depth])
  | histogram title label bars =>
    have hbars : (Json.list (bars.map Bar.toJson)).Fits (depth + 3) :=
      .list_map fun bar hbar => Bar.fits_toJson (h bar hbar) (depth + 1)
    exact .record (by simp [Json.Fits.text, hbars])
  | weatherCode code label =>
    have hcode : (Json.int code).Fits (depth + 3) := .int h.1 (by have := h.2; omega)
    exact .record (by simp [Json.Fits.text, hcode])
  | error line diagnostic =>
    have hdiagnostic : diagnostic.toJson.Fits (depth + 3) :=
      Diagnostic.Storable.fits h (depth + 1)
    exact .record (by simp [Json.Fits.text, hdiagnostic])
  | help commands =>
    have hcommands : (Json.list (commands.map HelpEntry.toJson)).Fits (depth + 3) :=
      .list_map fun entry _ => entry.fits_toJson (depth + 1)
    exact .record (by simp [Json.Fits.text, hcommands])
  | upload => exact .record (by simp [Json.Fits.text])
  | clear => exact .record (by simp [Json.Fits.text])

theorem Storable.ofJson?_toJson {output : Output} (h : output.Storable) :
    ofJson? output.toJson = some output := by
  have hany : output.toJson.toAny? = some output.toJson := if_pos (h.fits 0).isReadable
  rw [ofJson?, hany, Option.bind_eq_bind, Option.bind_some]
  cases output with
  | echo line => rfl
  | text content => rfl
  | table grid =>
    show (Grid.ofJson? grid.toJson).bind (fun grid => some (table grid)) = _
    rw [grid.ofJson?_toJson, Option.bind_some]
  | histogram title label bars =>
    have hbars : Json.toList? Bar.ofJson? (.list (bars.map Bar.toJson)) = some bars :=
      Json.toList?_map fun bar hbar => Bar.ofJson?_toJson (h bar hbar)
    show (Json.toList? Bar.ofJson? (.list (bars.map Bar.toJson))).bind
      (fun bars => some (histogram title label bars)) = _
    rw [hbars, Option.bind_some]
  | weatherCode code label =>
    have hcode : (Json.int code).toInt? = some code := if_pos h.2
    show (Json.int code).toInt?.bind (fun code => some (weatherCode code label)) = _
    rw [hcode, Option.bind_some]
  | error line diagnostic =>
    show (Diagnostic.ofJson? diagnostic.toJson).bind
      (fun diagnostic => some (error line diagnostic)) = _
    rw [Diagnostic.Storable.ofJson?_toJson h, Option.bind_some]
  | help commands =>
    have hcommands : Json.toList? HelpEntry.ofJson? (.list (commands.map HelpEntry.toJson)) =
        some commands := Json.toList?_map fun entry _ => entry.ofJson?_toJson
    show (Json.toList? HelpEntry.ofJson? (.list (commands.map HelpEntry.toJson))).bind
      (fun commands => some (help commands)) = _
    rw [hcommands, Option.bind_some]
  | upload => rfl
  | clear => rfl

end Output

namespace HistoryEntry

def Storable (entry : HistoryEntry) : Prop := ∀ output ∈ entry.outputs, output.Storable

theorem Storable.ofJson?_toJson {entry : HistoryEntry} (h : entry.Storable) :
    ofJson? entry.toJson = some entry := by
  have houtputs : Json.toList? Output.ofJson? (.list (entry.outputs.map Output.toJson)) =
      some entry.outputs := Json.toList?_map fun output houtput => (h output houtput).ofJson?_toJson
  have hfields : ofJson? entry.toJson =
      (Json.toList? Output.ofJson? (.list (entry.outputs.map Output.toJson))).bind
        fun outputs => some ⟨entry.line, outputs⟩ := rfl
  rw [hfields, houtputs, Option.bind_some]

theorem Storable.fits {entry : HistoryEntry} (h : entry.Storable) (depth : Nat) :
    entry.toJson.Fits (depth + 6) := by
  have houtputs : (Json.list (entry.outputs.map Output.toJson)).Fits (depth + 5) :=
    .list_map fun output houtput => (h output houtput).fits depth
  exact .record (by simp [Json.Fits.text, houtputs])

end HistoryEntry

/-- A history of entries that can be kept is read back from the text of its file. -/
theorem History.parse?_toText {history : History} (h : ∀ entry ∈ history, entry.Storable) :
    History.parse? history.toText = some history := by
  have hfits : history.toJson.Fits 127 := .list_map fun entry hentry => (h entry hentry).fits 120
  have hparse : Json.parse? history.toText = some history.toJson := Json.parse?_pretty hfits
  have hentries : Json.toList? HistoryEntry.ofJson? history.toJson = some history :=
    Json.toList?_map fun entry hentry => (h entry hentry).ofJson?_toJson
  rw [History.parse?, hparse, Option.bind_some]
  exact hentries

end Almanac
