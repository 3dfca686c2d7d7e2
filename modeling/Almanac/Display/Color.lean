/-!
Colours of a terminal. A coloured text stands between an escape sequence that sets the colour and
one that resets it.
-/

namespace Almanac

inductive Color where
  | red
  | green
  | yellow
  | blue
  | magenta
  | cyan
  | white
  | gray
deriving DecidableEq, Repr

namespace Color

def code : Color → Nat
  | red => 31
  | green => 32
  | yellow => 33
  | blue => 34
  | magenta => 35
  | cyan => 36
  | white => 37
  | gray => 90

def paint (color : Color) (text : String) : String :=
  "\x1b[" ++ toString color.code ++ "m" ++ text ++ "\x1b[0m"

end Color

end Almanac
