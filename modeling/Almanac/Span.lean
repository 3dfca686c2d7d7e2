import Almanac.Json.Decoding

/-!
A span is a range of byte positions in a line, from its start up to but not including its stop.
-/

namespace Almanac

structure Span where
  start : Nat
  stop : Nat
deriving DecidableEq, Repr

namespace Span

def empty (position : Nat) : Span := ⟨position, position⟩

def ofBounds? (start stop : Nat) : Option Span :=
  if start ≤ stop then some ⟨start, stop⟩ else none

def cover (s t : Span) : Span where
  start := if s.start ≤ t.start then s.start else t.start
  stop := if s.stop ≤ t.stop then t.stop else s.stop

def length (s : Span) : Nat := s.stop - s.start

def isEmpty (s : Span) : Bool := s.start = s.stop

def shift (s : Span) (offset : Nat) : Span := ⟨offset + s.start, offset + s.stop⟩

def boundsMessage (start stop : Nat) : String :=
  "Span end (" ++ toString stop ++ ") < start (" ++ toString start ++ ")"

def toJson (s : Span) : Json := .record [("start", .ofNat s.start), ("end", .ofNat s.stop)]

def ofJson? (value : Json) : Option Span := do
  let m ← value.members? ["start", "end"]
  pure ⟨← m.required "start" Json.toNat?, ← m.required "end" Json.toNat?⟩

end Span

end Almanac
