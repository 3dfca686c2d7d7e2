import Almanac.Proofs.Json.Decoding
import Almanac.Span
import Almanac.Text.Width

/-!
Spans as places in a line and as values in a file. A span that starts and stops between characters
cuts a text out of its line, and a span is decoded as it was encoded.
-/

namespace Almanac.Span

/-- What stands in a line under a span. -/
def textIn (span : Span) (line : String) : String :=
  String.ofList (Text.takeWidth span.length (Text.dropWidth span.start line.toList))

/-- The span starts and stops between the characters of a line. -/
def Cuts (span : Span) (line : String) : Prop :=
  ∃ front back, line.toList = front ++ (span.textIn line).toList ++ back ∧
    Text.width front = span.start ∧ Text.width (front ++ (span.textIn line).toList) = span.stop

theorem textIn_eq {span : Span} {line : String} {front text back : List Char}
    (hline : line.toList = front ++ text ++ back) (hstart : Text.width front = span.start)
    (hstop : Text.width (front ++ text) = span.stop) : span.textIn line = String.ofList text := by
  have hlength : span.length = Text.width text := by
    rw [Text.width_append] at hstop
    rw [length]
    omega
  rw [textIn, hline, ← hstart, hlength, List.append_assoc, Text.dropWidth_width_append,
    Text.takeWidth_width_append]

/-- Where a line is cut in three, the span of the middle part is one. -/
theorem cuts_of_split {span : Span} {line : String} {front text back : List Char}
    (hline : line.toList = front ++ text ++ back) (hstart : Text.width front = span.start)
    (hstop : Text.width (front ++ text) = span.stop) : span.Cuts line := by
  have htext : (span.textIn line).toList = text := by
    rw [textIn_eq hline hstart hstop, String.toList_ofList]
  exact ⟨front, back, by rw [htext, hline], hstart, by rw [htext, hstop]⟩

theorem Cuts.start_le_stop {span : Span} {line : String} (h : span.Cuts line) :
    span.start ≤ span.stop := by
  obtain ⟨front, back, -, hstart, hstop⟩ := h
  rw [Text.width_append] at hstop
  omega

theorem Cuts.stop_le {span : Span} {line : String} (h : span.Cuts line) :
    span.stop ≤ Text.byteLength line := by
  obtain ⟨front, back, hline, -, hstop⟩ := h
  rw [Text.byteLength, hline, Text.width_append, hstop]
  exact Nat.le_add_right _ _

def Storable (s : Span) : Prop := s.start < Json.wordLimit ∧ s.stop < Json.wordLimit

theorem ofJson?_toJson (s : Span) : ofJson? s.toJson = some s := by
  have hfields : ofJson? s.toJson =
      (Json.ofNat s.start).toNat?.bind fun start =>
        (Json.ofNat s.stop).toNat?.bind fun stop => some ⟨start, stop⟩ := rfl
  rw [hfields, Json.toNat?_ofNat, Option.bind_some, Json.toNat?_ofNat, Option.bind_some]

theorem Storable.fits {s : Span} (h : s.Storable) (depth : Nat) : s.toJson.Fits (depth + 1) :=
  .record (by simp [Json.fits_ofNat h.1, Json.fits_ofNat h.2])

end Almanac.Span
