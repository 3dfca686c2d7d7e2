import Almanac.Display.Color
import Almanac.Display.Grid
import Almanac.Display.Histogram

/-!
Outputs as lines of text for a terminal. Errors have no lines here: they are reported elsewhere
than results. A table that cannot be printed is an error of the program itself.
-/

namespace Almanac

namespace Weather

def between (low high code : Int) : Bool := low ≤ code && code ≤ high

def codeColor (code : Int) : Color :=
  if between 0 3 code then .yellow
  else if code = 45 || code = 48 then .gray
  else if between 51 67 code || between 80 82 code then .blue
  else if between 71 77 code || between 85 86 code then .white
  else .magenta

end Weather

namespace HelpEntry

def lines (entry : HelpEntry) : List String :=
  ["  " ++ entry.usage ++ "  " ++ Color.gray.paint ("(" ++ entry.arity ++ ")"),
    "      " ++ entry.description]

def paramKinds : List (String × String) :=
  [("row", "a dataset column in back-ticks, e.g. `temperature_max`"),
    ("date", "a day index (0 is the first day, -1 the last) or an ISO date like 2024-04-24"),
    ("number", "a decimal number, e.g. 38.9 or -94.7"),
    ("string", "text in double quotes, e.g. \"Kansas City\""),
    ("subquery", "a min, max, avg or value query nested at the end")]

end HelpEntry

namespace Output

def lines : Output → Except String (List String)
  | echo line => .ok [Color.cyan.paint ">" ++ " " ++ line]
  | text content => .ok [content]
  | table grid => grid.printed
  | histogram title label bars =>
    .ok ([Color.cyan.paint title, Color.gray.paint ("y: " ++ label)] ++ Bar.lines bars)
  | weatherCode code label => .ok [(Weather.codeColor code).paint label]
  | error _ _ => .ok []
  | help commands =>
    .ok ([Color.cyan.paint "Queries:"] ++ commands.flatMap HelpEntry.lines ++
      ["", Color.cyan.paint "Parameter types:"] ++
      HelpEntry.paramKinds.map fun kind => "  " ++ kind.1 ++ ": " ++ kind.2)
  | upload => .ok ["Use `wq upload <FILE>` (or `:upload <FILE>` in the shell) to load a dataset."]
  | clear => .ok [Color.gray.paint "History cleared."]

end Output

end Almanac
