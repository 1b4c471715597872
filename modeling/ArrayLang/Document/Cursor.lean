/-!
# Positions in a document

A cursor is the rest of a document together with the place where that rest starts.  Lines and
columns count from zero.  A carriage return, a line feed, the two together, U+0085, U+2028 and
U+2029 each end a line.

A document is taken in by portions of 512 bytes, and only as far as somebody asks for it.  So a
character that may not stand in a document is found only if the portion that holds it is taken in.
-/

namespace ArrayLang.Document

/-- A place in a document. -/
structure Place where
  /-- The number of characters before it. -/
  index : Nat := 0
  line : Nat := 0
  column : Nat := 0
  deriving DecidableEq, Repr, Inhabited

/-- The rest of a document and the place where it starts. -/
structure Cursor where
  rest : List Char
  place : Place := {}
  /-- The number of line ends passed since the last character that is neither blank nor a line
  end. -/
  newlines : Nat := 0
  /-- How many characters were taken in beyond this place; the end of the document counts as one
  whenever it is met. -/
  ahead : Nat := 0
  /-- The room for the next portion, in bytes. -/
  portion : Nat := 512
  /-- When a portion was last taken in, the rest started with a byte order mark. -/
  marked : Bool := false
  /-- More steps than can be made in the document. -/
  bound : Nat
  deriving Repr

/-- A space or a tab. -/
def isGap (c : Char) : Bool := c == ' ' || c == '\t'

/-- A character that ends a line. -/
def isLineEnd (c : Char) : Bool :=
  c == '\r' || c == '\n' || c == '\u0085' || c == '\u2028' || c == '\u2029'

/-- A character of a name, as anchors and tag handles use it. -/
def isNameChar (c : Char) : Bool := c.isAlphanum || c == '_' || c == '-'

/-- The place is the end of the document, or holds a space, a tab or a line end. -/
def isSeparator : Option Char → Bool
  | none => true
  | some c => isGap c || isLineEnd c

/-- The place is the end of the document or of a line. -/
def isLineEndOrStop : Option Char → Bool
  | none => true
  | some c => isLineEnd c

/-- A character that may stand in a document. -/
def isAllowed (c : Char) : Bool :=
  let n := c.val
  n == 0x09 || n == 0x0a || n == 0x0d || (0x20 ≤ n && n ≤ 0x7e) || n == 0x85 ||
    (0xa0 ≤ n && n ≤ 0xfffd) || 0x10000 ≤ n

/-- The number of characters that fit into some room, in bytes. -/
def portionLength (room : Nat) : List Char → Nat
  | [] => 0
  | c :: rest =>
    if c.utf8Size ≤ room then portionLength (room - c.utf8Size) rest + 1 else 0

/-- What a document holds at a number of bytes from its start. -/
inductive Look where
  /-- The end. -/
  | stop
  /-- The start of a character. -/
  | char (c : Char)
  /-- The inside of a character. -/
  | inside

/-- Look at a document at a number of bytes from its start. -/
def look : List Char → Nat → Look
  | [], _ => .stop
  | c :: _, 0 => .char c
  | c :: rest, n + 1 => if c.utf8Size ≤ n + 1 then look rest (n + 1 - c.utf8Size) else .inside

namespace Cursor

/-- The start of a document.  A byte order mark in front of it is passed over. -/
def start (text : List Char) : Cursor :=
  let bound := text.length + 8
  match text with
  | '\ufeff' :: rest => { rest, portion := 509, bound }
  | [] => { rest := ['\n'], bound }
  | rest => { rest, bound }

/-- The character at the cursor. -/
def head (c : Cursor) : Option Char := c.rest.head?

/-- The character `n` places behind the cursor. -/
def peek (c : Cursor) (n : Nat) : Option Char := c.rest[n]?

def line (c : Cursor) : Nat := c.place.line

def column (c : Cursor) : Nat := c.place.column

/-- Take in portions of `later` until there are `count` characters.  All characters of a portion
have to be allowed. -/
def takeIn (count : Nat) : (fuel : Nat) → (later : List Char) → Cursor → Option Cursor
  | 0, _, c => some c
  | fuel + 1, later, c =>
    if count ≤ c.ahead then some c
    else
      match later with
      | [] => some { c with ahead := c.ahead + 1 }
      | _ =>
        let n := portionLength c.portion later
        if (later.take n).all isAllowed then
          takeIn count fuel (later.drop n) { c with ahead := c.ahead + n, portion := 512 }
        else none

/-- Make sure that `count` characters are taken in. -/
def need (c : Cursor) (count : Nat) : Option Cursor :=
  if count ≤ c.ahead then some c
  else takeIn count (count + 1) (c.rest.drop c.ahead) { c with marked := c.head == some '\ufeff' }

/-- Pass over one character that does not end a line, or over the end. -/
def advance (c : Cursor) : Cursor :=
  { c with
    rest := c.rest.tail
    place := { c.place with index := c.place.index + 1, column := c.place.column + 1 }
    newlines := if c.head.any isGap then c.newlines else 0
    ahead := c.ahead - 1 }

/-- Pass over `n` characters none of which ends a line. -/
def advanceBy (c : Cursor) : Nat → Cursor
  | 0 => c
  | n + 1 => c.advance.advanceBy n

/-- Pass over `n` characters none of which ends a line; behind each, `count` more are taken in. -/
def walk (count : Nat) : Nat → Cursor → Option Cursor
  | 0, c => some c
  | n + 1, c => do walk count n (← c.advance.need count)

/-- Pass over a line end of `width` characters. -/
def lineEnd (c : Cursor) (width : Nat) : Cursor :=
  { c with
    rest := c.rest.drop width
    place := ⟨c.place.index + width, c.place.line + 1, 0⟩
    newlines := c.newlines + 1
    ahead := c.ahead - width }

/-- Pass over a line end, if the cursor stands at one.  The text is what the line end stands for in
a scalar: U+2028 and U+2029 stay, the others become a line feed. -/
def takeLineEnd (c : Cursor) : List Char × Cursor :=
  match c.rest with
  | '\r' :: '\n' :: _ => (['\n'], c.lineEnd 2)
  | ch :: _ =>
    if isLineEnd ch then (if ch == '\u2028' || ch == '\u2029' then [ch] else ['\n'], c.lineEnd 1)
    else ([], c)
  | [] => ([], c)

/-- Pass over a line end, if the cursor stands at one. -/
def advanceLine (c : Cursor) : Cursor := c.takeLineEnd.2

/-- The characters at the cursor that satisfy `p`. -/
def takeWhile (c : Cursor) (p : Char → Bool) : List Char := c.rest.takeWhile p

/-- Pass over the characters that satisfy `p`, none of which ends a line. -/
def skipWhile (c : Cursor) (p : Char → Bool) : Option Cursor :=
  c.walk 1 (c.rest.takeWhile p).length

/-- Pass over the rest of the line. -/
def skipLine (c : Cursor) : Option Cursor := c.skipWhile fun ch => !isLineEnd ch

/-- At the start of a line stands `---` or `...`, followed by a separator. -/
def atDocumentMark (c : Cursor) : Bool :=
  c.column == 0 && (c.rest.take 3 == ['-', '-', '-'] || c.rest.take 3 == ['.', '.', '.']) &&
    isSeparator (c.peek 3)

/-- Pass over `n` characters, taking line ends as such. -/
def passOver : Nat → Cursor → Cursor
  | 0, c => c
  | n + 1, c =>
    match c.rest with
    | '\r' :: '\n' :: _ => if n = 0 then c.advanceLine else passOver (n - 1) c.advanceLine
    | ch :: _ => if isLineEnd ch then passOver n c.advanceLine else passOver n c.advance
    | [] => c

end Cursor

end ArrayLang.Document
