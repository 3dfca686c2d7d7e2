import Almanac.Span
import Almanac.Text.Pieces

/-!
A line is cut into tokens at its blanks. A piece between blanks that starts with a double quote
and does not end with one opens a quoted run: the pieces that follow are joined to it, blanks
included, up to the first one that ends with a double quote, or to the end of the line. Every
token knows the byte at which it starts.
-/

namespace Almanac

structure Token where
  text : String
  start : Nat
deriving DecidableEq, Repr

namespace Token

def stop (t : Token) : Nat := t.start + Text.byteLength t.text

def span (t : Token) : Span := ⟨t.start, t.stop⟩

def endsQuoted (piece : List Char) : Bool := piece.getLast? = some '"'

def opensRun (piece : List Char) : Bool := piece.head? = some '"' && !endsQuoted piece

structure Run where
  text : List Char
  start : Nat

def Run.toToken (run : Run) : Token := ⟨String.ofList run.text, run.start⟩

def Run.join (run : Run) (piece : List Char) : Run := ⟨run.text ++ ' ' :: piece, run.start⟩

/-- The tokens of pieces, the first of which starts at the given byte, after an open run if
there is one. -/
def ofPieces : Option Run → Nat → List (List Char) → List Token
  | none, _, [] => []
  | some run, _, [] => [run.toToken]
  | none, start, piece :: rest =>
    let next := start + Text.width piece + 1
    if piece.isEmpty then ofPieces none next rest
    else if opensRun piece then ofPieces (some ⟨piece, start⟩) next rest
    else ⟨String.ofList piece, start⟩ :: ofPieces none next rest
  | some run, start, piece :: rest =>
    let next := start + Text.width piece + 1
    if endsQuoted piece then (run.join piece).toToken :: ofPieces none next rest
    else ofPieces (some (run.join piece)) next rest

def scan (line : List Char) : List Token := ofPieces none 0 (Text.pieces (· = ' ') line)

end Token

def tokenize (line : String) : List Token := Token.scan line.toList

def endsWithSeparator (line : List Char) : Bool := line.getLast? = some ' '

def hasOpenQuote (line : List Char) : Bool := line.count '"' % 2 = 1

end Almanac
