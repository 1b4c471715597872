import ArrayLang.Text.Printable
import ArrayLang.Text.Utf8

/-!
# Quoted text

A text in double quotes on one line.  Printable characters stand for themselves; the quote, the
backslash and the common controls have two-character escapes; every other character is written by
its code point, and a stray byte by its value.
-/

namespace ArrayLang.Text

/-- The lower-case hexadecimal digit of a number below sixteen. -/
def hexDigit (n : Nat) : Char := Nat.digitChar (n % 16)

/-- The last `width` hexadecimal digits of `n`, high digit first. -/
def hexDigits : (width n : Nat) → List Char
  | 0, _ => []
  | width + 1, n => hexDigits width (n / 16) ++ [hexDigit n]

/-- How one character appears between the quotes. -/
def escapeChar (c : Char) : List Char :=
  if c = '"' ∨ c = '\\' then ['\\', c]
  else if isPrintable c then [c]
  else match c.toNat with
    | 0x07 => ['\\', 'a']
    | 0x08 => ['\\', 'b']
    | 0x09 => ['\\', 't']
    | 0x0a => ['\\', 'n']
    | 0x0b => ['\\', 'v']
    | 0x0c => ['\\', 'f']
    | 0x0d => ['\\', 'r']
    | n =>
      if n < 0x80 then '\\' :: 'x' :: hexDigits 2 n
      else if n < 0x10000 then '\\' :: 'u' :: hexDigits 4 n
      else '\\' :: 'U' :: hexDigits 8 n

/-- How one unit of text appears between the quotes. -/
def Glyph.escape : Glyph → List Char
  | .char c => escapeChar c
  | .stray b => '\\' :: 'x' :: hexDigits 2 b.toNat

/-- The quoted form of a list of units. -/
def quoteGlyphs (units : List Glyph) : String :=
  String.ofList ('"' :: (units.flatMap Glyph.escape ++ ['"']))

/-- The quoted form of a text. -/
def quote (text : String) : String :=
  String.ofList ('"' :: (text.toList.flatMap escapeChar ++ ['"']))

end ArrayLang.Text
