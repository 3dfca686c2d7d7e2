import Almanac.Table.Param
import Almanac.Text.Width

/-!
A suggestion panel shows, from top to bottom, what is being typed, which values are possible and
what there is to say about it. The panel of a sub-query is nested in the panel of its query, and
only the candidates of the innermost panel can be chosen.
-/

namespace Almanac

structure Candidate where
  text : String
  /-- How many bytes of it are typed already. -/
  typed : Nat
  detail : Option String := none
  selected : Bool := false
deriving DecidableEq, Repr

/-- A parameter in a signature; the current one is the one being typed. -/
structure SignatureParam where
  label : String
  kind : ParamKind
  optional : Bool
  current : Bool
deriving DecidableEq, Repr

structure Signature where
  command : String
  params : List SignatureParam
  /-- More parameters follow, depending on the first one. -/
  truncated : Bool := false
deriving DecidableEq, Repr

structure Panel where
  header : Option String := none
  usageHint : Option String := none
  signature : Option Signature := none
  valuesHeader : Option String := none
  candidates : List Candidate := []
  message : Option String := none
  nested : Option Panel := none

namespace Candidate

def split (c : Candidate) : String × String :=
  (String.ofList (Text.takeWidth c.typed c.text.toList),
    String.ofList (Text.dropWidth c.typed c.text.toList))

def toJson (c : Candidate) : Json :=
  .record <|
    [("text", .text c.text), ("typed_len", .ofNat c.typed)] ++
      Json.fieldIfSome "detail" .text c.detail ++ [("selected", .bool c.selected)]

end Candidate

namespace SignatureParam

def ofParam (p : Param) (current : Bool) : SignatureParam :=
  ⟨p.bracketed, p.kind, p.optional, current⟩

def toJson (p : SignatureParam) : Json :=
  .record
    [("label", .text p.label), ("kind", .text p.kind.word), ("optional", .bool p.optional),
      ("current", .bool p.current)]

end SignatureParam

def Signature.toJson (s : Signature) : Json :=
  .record <|
    [("command", .text s.command), ("params", .list (s.params.map SignatureParam.toJson))] ++
      if s.truncated then [("truncated", .bool true)] else []

namespace Panel

def innermost : Panel → Panel
  | ⟨_, _, _, _, _, _, some inner⟩ => inner.innermost
  | panel => panel

def selected? (panel : Panel) : Option Candidate :=
  panel.innermost.candidates.find? Candidate.selected

def markAt (index : Nat) (candidates : List Candidate) : List Candidate :=
  candidates.mapIdx fun i c => { c with selected := i = index }

def select (index : Nat) : Panel → Panel
  | ⟨header, hint, signature, valuesHeader, candidates, message, some inner⟩ =>
    ⟨header, hint, signature, valuesHeader, candidates, message, some (inner.select index)⟩
  | ⟨header, hint, signature, valuesHeader, candidates, message, none⟩ =>
    ⟨header, hint, signature, valuesHeader, markAt index candidates, message, none⟩

def toJson : Panel → Json
  | ⟨header, hint, signature, valuesHeader, candidates, message, nested⟩ =>
    .record <|
      Json.fieldIfSome "header" .text header ++ Json.fieldIfSome "usage_hint" .text hint ++
        Json.fieldIfSome "signature" Signature.toJson signature ++
        Json.fieldIfSome "values_header" .text valuesHeader ++
        (if candidates.isEmpty then []
          else [("candidates", .list (candidates.map Candidate.toJson))]) ++
        Json.fieldIfSome "message" .text message ++
        match nested with
        | none => []
        | some inner => [("nested", inner.toJson)]

end Panel

end Almanac
