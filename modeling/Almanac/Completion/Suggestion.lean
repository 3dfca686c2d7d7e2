import Almanac.Completion.Basic
import Almanac.Dataset.Basic

/-!
Suggestions answer what happens at an input line. The caller keeps the cursor, which is the index
of the selected candidate, and passes it in with every event; a suggestion says what becomes of
the panel and of the cursor, and which line an insertion has led to.
-/

namespace Almanac

inductive Key where
  | arrowUp
  | arrowDown
  | tab
  | escape
  | other
deriving DecidableEq, Repr

inductive InputEvent where
  | key (key : Key)
  | focus
  | blur (intoPanel : Bool)
  | pointerDown
  | pointerUp
  | select (index : Nat)
deriving DecidableEq, Repr

inductive PanelView where
  | hidden
  | unchanged
  | visible (panel : Panel)

structure Suggestion where
  view : PanelView
  cursor : Nat
  completed : Option (List Char) := none

def Key.ofWord? : String → Option Key
  | "arrow-up" => some .arrowUp
  | "arrow-down" => some .arrowDown
  | "tab" => some .tab
  | "escape" => some .escape
  | "other" => some .other
  | _ => none

def InputEvent.ofJson? (json : Json) : Option InputEvent := do
  match ← json.tag? "event" with
  | "key" => do
    let m ← json.members? ["event", "key"]
    pure (.key (← m.required "key" fun word => word.toWord?.bind Key.ofWord?))
  | "focus" => pure .focus
  | "blur" => do
    let m ← json.members? ["event", "into_panel"]
    pure (.blur (← m.required "into_panel" Json.toBool?))
  | "pointer-down" => pure .pointerDown
  | "pointer-up" => pure .pointerUp
  | "select" => do
    let m ← json.members? ["event", "index"]
    pure (.select (← m.required "index" Json.toNat?))
  | _ => none

namespace PanelView

def panel? : PanelView → Option Panel
  | visible panel => some panel
  | _ => none

def toJson : PanelView → Json
  | hidden => .record [("view", .text "hidden")]
  | unchanged => .record [("view", .text "unchanged")]
  | visible panel => .record [("view", .text "visible"), ("panel", panel.toJson)]

end PanelView

namespace Suggestion

def toJson (s : Suggestion) : Json :=
  .record <|
    [("view", s.view.toJson), ("cursor", .record [("selected", .ofNat s.cursor)])] ++
      Json.fieldIfSome "completed" (fun line => .text (String.ofList line)) s.completed

def panel? (s : Suggestion) : Option Panel := s.view.panel?

def shown (completion : Completion) (index : Nat) : Suggestion :=
  ⟨.visible (completion.panel.select index), index, none⟩

def completedLine (line : List Char) (completion : Completion) (insertion : String) :
    List Char :=
  Text.takeWidth completion.replaceFrom line ++ insertion.toList ++ [' ']

/-- Inserts the candidate at an index and completes the line that this leads to. Without such a
candidate the line stays as it is. -/
def insert (offer : Offer) (nested : Bool) (line : List Char) (index : Nat) : Suggestion :=
  let completion := Completion.ofLine offer nested line
  match completion.insertions[index]? with
  | none => shown completion index
  | some insertion =>
    let completed := completedLine line completion insertion
    { shown (Completion.ofLine offer nested completed) 0 with completed := some completed }

def next (count index : Nat) : Nat := if count ≤ index + 1 then 0 else index + 1

def previous (count index : Nat) : Nat :=
  if 0 < index && index - 1 < count then index - 1 else count - 1

def after (offer : Offer) (nested : Bool) (cursor : Nat) (line : List Char)
    (event : InputEvent) : Suggestion :=
  let completion := Completion.ofLine offer nested line
  let count := completion.insertions.length
  match event with
  | .key .escape => ⟨.hidden, cursor, none⟩
  | .blur true => ⟨.unchanged, cursor, none⟩
  | .blur false => ⟨.hidden, cursor, none⟩
  | .key .tab => insert offer nested line cursor
  | .select index => insert offer nested line index
  | .key .arrowDown => shown completion (next count cursor)
  | .key .arrowUp => shown completion (previous count cursor)
  | .key .other | .focus | .pointerDown | .pointerUp => shown completion 0

/-- Every line that choosing a candidate leads to, with the text of the candidate. -/
def choices (offer : Offer) (line : List Char) : List (String × List Char) :=
  match (after offer false 0 line (.key .other)).panel? with
  | none => []
  | some panel =>
    (panel.innermost.candidates.mapIdx fun index candidate =>
      (after offer false 0 line (.select index)).completed.map fun completed =>
        (candidate.text, completed)).filterMap id

def hint? (offer : Offer) (line : List Char) : Option (List Char) :=
  (after offer false 0 line (.select 0)).completed.bind fun completed =>
    if line.isPrefixOf completed then
      let added := completed.drop line.length
      if (Text.trim added).isEmpty then none else some added
    else none

def hintAt? (offer : Offer) (line : List Char) (position : Nat) : Option (List Char) :=
  if position < Text.width line || line.isEmpty then none else hint? offer line

end Suggestion

def Offer.ofDataset (table : CommandTable) (ds : Dataset) : Offer := ⟨table, ds.rows, ds.dates⟩

end Almanac
