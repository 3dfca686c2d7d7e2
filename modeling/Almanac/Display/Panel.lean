import Almanac.Completion.Panel
import Almanac.Display.Color

/-!
A suggestion panel as lines of coloured text. Nested panels are indented.
-/

namespace Almanac

def ParamKind.color : ParamKind → Color
  | row => .magenta
  | date => .cyan
  | enum => .yellow
  | string => .green
  | int | number => .blue
  | subQuery | unsupported => .white

def SignatureParam.shown (p : SignatureParam) : String :=
  if p.current then p.kind.color.paint ("▸" ++ p.label) else p.label

def Signature.line (s : Signature) : String :=
  s.command ++ String.join (s.params.map fun p => " " ++ p.shown) ++
    if s.truncated then " …" else ""

def Candidate.line (c : Candidate) : String :=
  Color.green.paint (if c.selected then "Tab ▸" else "     ") ++ " " ++
    Color.cyan.paint c.split.1 ++ c.split.2 ++
      c.detail.elim "" fun detail => "  " ++ Color.gray.paint detail

namespace Panel

def linesAt (indent : String) : Panel → List String
  | ⟨header, hint, signature, valuesHeader, candidates, message, nested⟩ =>
    let own :=
      (header.map Color.cyan.paint).toList ++ (hint.map Color.gray.paint).toList ++
        (signature.map Signature.line).toList ++ valuesHeader.toList ++
        candidates.map Candidate.line ++ (message.map Color.yellow.paint).toList
    own.map (indent ++ ·) ++
      match nested with
      | none => []
      | some inner => inner.linesAt (indent ++ "  ")

def lines (panel : Panel) : List String := panel.linesAt ""

end Panel

end Almanac
