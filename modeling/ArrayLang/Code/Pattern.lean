import ArrayLang.Code.Listing

/-!
# Patterns of lines

A pattern fits a line by its whole text, by parts of it, or by both.  Patterns can be asked to fit
the first lines of a listing, or some run of lines anywhere in it.
-/

namespace ArrayLang.Code

/-- A pattern of a line; an empty `mnemonic` fits every text. -/
structure Pattern where
  name : String
  mnemonic : String := ""
  parts : List String := []
  deriving DecidableEq, Repr

namespace Pattern

/-- The pattern of one text. -/
def exactly (mnemonic : String) : Pattern := { name := mnemonic, mnemonic }

/-- `part` stands somewhere in `text`. -/
def occursIn (part : List Char) : (text : List Char) → Bool
  | [] => part.isEmpty
  | c :: rest => part.isPrefixOf (c :: rest) || occursIn part rest

/-- A pattern fits a line. -/
def fits (p : Pattern) (line : Line) : Bool :=
  (p.mnemonic = "" || line.text = p.mnemonic) &&
    p.parts.all fun part => occursIn part.toList line.text.toList

end Pattern

/-- The patterns fit the first lines, one each. -/
def fitsStart : List Pattern → List Line → Bool
  | [], _ => true
  | _ :: _, [] => false
  | p :: patterns, line :: lines => p.fits line && fitsStart patterns lines

/-- The number of the first line from which on the patterns fit, when counting from `number`. -/
def findRun? (patterns : List Pattern) (number : Nat) : (lines : List Line) → Option Nat
  | [] => if patterns.isEmpty then some number else none
  | line :: rest =>
    if fitsStart patterns (line :: rest) then some number else findRun? patterns (number + 1) rest

/-- How many lines have a text. -/
def countLines (text : String) (lines : List Line) : Nat :=
  lines.countP fun line => line.text = text

end ArrayLang.Code
