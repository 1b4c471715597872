import ArrayLang.Document.Cursor

/-!
# Scalars in a document

How the text of a scalar is read: plain, in single or double quotes, or as an indented block.
A line break inside a scalar becomes a space, and further breaks stay, except in literal blocks.
-/

namespace ArrayLang.Document

/-- The white space between two words of a scalar. -/
structure Fold where
  /-- Blanks before any line end. -/
  blanks : List Char := []
  /-- The first line end. -/
  first : List Char := []
  /-- The line ends after the first. -/
  more : List Char := []
  /-- A line end was passed. -/
  broken : Bool := false

/-- What white space between two words contributes to the value. -/
def Fold.text (f : Fold) : List Char :=
  if f.broken then
    if f.first.head? == some '\n' then if f.more.isEmpty then [' '] else f.more
    else f.first ++ f.more
  else f.blanks

/-- Read white space.  A tab may not stand left of column `margin` on a line of its own. -/
def readFold (margin : Int) : (fuel : Nat) → Fold → Cursor → Option (Fold × Cursor)
  | 0, f, c => some (f, c)
  | fuel + 1, f, c =>
    match c.head with
    | none => some (f, c)
    | some ch =>
      if isGap ch then do
        if f.broken && ch == '\t' && (c.column : Int) < margin then none
        let f := if f.broken then f else { f with blanks := f.blanks ++ [ch] }
        readFold margin fuel f (← c.advance.need 1)
      else if isLineEnd ch then do
        let (text, c) := (← c.need 2).takeLineEnd
        let f := if f.broken then { f with more := f.more ++ text }
          else { f with blanks := [], first := text, broken := true }
        readFold margin fuel f (← c.need 1)
      else some (f, c)

/-- The number of characters of a plain scalar up to white space or an indicator that ends it. -/
def plainWordLength (flow : Bool) : List Char → Nat
  | [] => 0
  | c :: rest =>
    if isGap c || isLineEnd c then 0
    else if c == ':' && isSeparator rest.head? then 0
    else if flow && [',', '?', '[', ']', '{', '}'].contains c then 0
    else plainWordLength flow rest + 1

/-- Read a plain scalar.  The flag tells whether line ends stand behind it. -/
def readPlain (flow : Bool) (margin : Int) :
    (fuel : Nat) → Array Char → Fold → Cursor → Option (Array Char × Bool × Cursor)
  | 0, text, f, c => some (text, f.broken, c)
  | fuel + 1, text, f, c => do
    let c ← c.need 4
    if c.atDocumentMark || c.head == some '#' then return (text, f.broken, c)
    let n := plainWordLength flow c.rest
    if n = 0 then return (text, f.broken, c)
    let text := text ++ f.text ++ c.rest.take n
    let c ← c.walk 2 n
    if c.head.any fun ch => isGap ch || isLineEnd ch then
      let (f, c) ← readFold margin c.bound {} c
      if !flow && (c.column : Int) < margin then return (text, f.broken, c)
      readPlain flow margin fuel text f c
    else return (text, false, c)

/-- The value of a hexadecimal digit. -/
def hexValue? (c : Char) : Option Nat :=
  if c.isDigit then some (c.toNat - '0'.toNat)
  else if 'a' ≤ c ∧ c ≤ 'f' then some (c.toNat - 'a'.toNat + 10)
  else if 'A' ≤ c ∧ c ≤ 'F' then some (c.toNat - 'A'.toNat + 10)
  else none

/-- The number that a list of hexadecimal digits denotes. -/
def hexNumber? : Nat → List Char → Option Nat
  | n, [] => some n
  | n, c :: rest => do hexNumber? (n * 16 + (← hexValue? c)) rest

/-- The character of an escape in double quotes that names one directly. -/
def namedEscape? (c : Char) : Option Char :=
  match c with
  | '0' => some '\x00'
  | 'a' => some '\x07'
  | 'b' => some '\x08'
  | 't' => some '\t'
  | '\t' => some '\t'
  | 'n' => some '\n'
  | 'v' => some '\x0b'
  | 'f' => some '\x0c'
  | 'r' => some '\r'
  | 'e' => some '\x1b'
  | ' ' => some ' '
  | '"' => some '"'
  | '\'' => some '\''
  | '\\' => some '\\'
  | 'N' => some '\u0085'
  | '_' => some '\u00a0'
  | 'L' => some '\u2028'
  | 'P' => some '\u2029'
  | _ => none

/-- The number of digits of an escape in double quotes that gives a code point. -/
def numericEscape? (c : Char) : Option Nat :=
  if c == 'x' then some 2 else if c == 'u' then some 4 else if c == 'U' then some 8 else none

/-- The character of an escape and the place behind it; the cursor stands at the backslash. -/
def readEscape? (c : Cursor) : Option (Char × Cursor) := do
  let letter ← c.peek 1
  let c := c.advanceBy 2
  match namedEscape? letter with
  | some ch => pure (ch, c)
  | none =>
    let width ← numericEscape? letter
    let c ← c.need width
    let digits := c.rest.take width
    if digits.length < width then none
    let n ← hexNumber? 0 digits
    if (0xd800 ≤ n && n ≤ 0xdfff) || 0x10ffff < n then none
    pure (Char.ofNat n, c.advanceBy width)

/-- Read the characters of a quoted scalar up to white space or the closing quote.  The flag tells
whether an escaped line end was passed. -/
def readQuotedWord (single : Bool) :
    (fuel : Nat) → Array Char → Cursor → Option (Array Char × Bool × Cursor)
  | 0, text, c => some (text, false, c)
  | fuel + 1, text, c =>
    match c.rest with
    | [] => some (text, false, c)
    | ch :: rest =>
      if isGap ch || isLineEnd ch then some (text, false, c)
      else if single && ch == '\'' then do
        if rest.head? != some '\'' then return (text, false, c)
        readQuotedWord single fuel (text.push '\'') (← (c.advanceBy 2).need 2)
      else if !single && ch == '"' then some (text, false, c)
      else if !single && ch == '\\' then do
        if rest.head?.any isLineEnd then return (text, true, (← c.need 3).advance.advanceLine)
        let (e, c) ← readEscape? c
        readQuotedWord single fuel (text.push e) (← c.need 2)
      else do readQuotedWord single fuel (text.push ch) (← c.advance.need 2)

/-- Read a quoted scalar; the cursor stands behind the opening quote. -/
def readQuoted (single : Bool) : (fuel : Nat) → Array Char → Cursor → Option (Array Char × Cursor)
  | 0, _, _ => none
  | fuel + 1, text, c => do
    let c ← c.need 4
    if c.atDocumentMark || c.rest.isEmpty then none
    let (text, escaped, c) ← readQuotedWord single c.bound text c
    let c ← c.need 1
    if c.head == some (if single then '\'' else '"') then return (text, c.advance)
    let (f, c) ← readFold 0 c.bound { broken := escaped } c
    readQuoted single fuel (text ++ f.text) c

/-- What happens to the line ends at the end of a block scalar. -/
inductive Chomping where
  | strip
  | clip
  | keep
  deriving DecidableEq

/-- Pass over the indentation and the empty lines of a block scalar.  An `indent` of zero is not
known yet.  The results are the widest indentation seen, the line ends, and the new place. -/
def readBlockBreaks (indent : Nat) :
    (fuel : Nat) → Nat → Array Char → Cursor → Option (Nat × Array Char × Cursor)
  | 0, widest, breaks, c => some (widest, breaks, c)
  | fuel + 1, widest, breaks, c => do
    let c ← c.need 1
    let spaces := (c.takeWhile (· == ' ')).length
    let c ← c.walk 1 (if indent = 0 then spaces else min spaces (indent - c.column))
    let widest := max widest c.column
    if (indent = 0 || c.column < indent) && c.head == some '\t' then none
    if c.head.any isLineEnd then
      let (text, c) := (← c.need 2).takeLineEnd
      readBlockBreaks indent fuel widest (breaks ++ text) c
    else return (widest, breaks, c)

/-- The text of a block scalar so far. -/
structure BlockText where
  text : Array Char := #[]
  /-- The end of the last line that holds text. -/
  lineEnd : List Char := []
  /-- The empty lines after it. -/
  breaks : Array Char := #[]
  /-- The last line with text starts with a blank. -/
  blankLine : Bool := false

/-- Read the lines of a block scalar with known indentation. -/
def readBlockLines (literal : Bool) (indent : Nat) :
    (fuel : Nat) → BlockText → Cursor → Option (BlockText × Cursor)
  | 0, b, c => some (b, c)
  | fuel + 1, b, c => do
    if c.column == indent && !c.rest.isEmpty then
      let blank := c.head.any isGap
      let text :=
        if !literal && !b.blankLine && !blank && b.lineEnd.head? == some '\n' then
          if b.breaks.isEmpty then b.text.push ' ' else b.text
        else b.text ++ b.lineEnd
      let text := text ++ b.breaks
      let line := c.takeWhile fun ch => !isLineEnd ch
      let (lineEnd, c) := (← (← c.walk 1 line.length).need 2).takeLineEnd
      let (_, breaks, c) ← readBlockBreaks indent c.bound 0 #[] c
      readBlockLines literal indent fuel
        { text := text ++ line, lineEnd, breaks, blankLine := blank } c
    else return (b, c)

/-- The header of a block scalar behind its indicator: chomping and indentation in either order. -/
def readBlockHeader? (c : Cursor) : Option (Chomping × Nat × Cursor) := do
  let chomping? (ch : Option Char) : Option Chomping :=
    if ch == some '+' then some .keep else if ch == some '-' then some .strip else none
  let digit? (ch : Option Char) : Option Nat :=
    ch.bind fun ch => if ch.isDigit then some (ch.toNat - '0'.toNat) else none
  let c ← c.need 1
  match chomping? c.head with
  | some chomping =>
    let c ← c.advance.need 1
    match digit? c.head with
    | some 0 => none
    | some n => pure (chomping, n, c.advance)
    | none => pure (chomping, 0, c)
  | none =>
    match digit? c.head with
    | some 0 => none
    | some n =>
      let c ← c.advance.need 1
      match chomping? c.head with
      | some chomping => pure (chomping, n, c.advance)
      | none => pure (.clip, n, c)
    | none => pure (.clip, 0, c)

/-- Read the lines of a block scalar inside a block of the given indentation; the cursor stands
behind the line of the indicator. -/
def readBlock (literal : Bool) (outer : Int) (chomping : Chomping) (increment : Nat) (c : Cursor) :
    Option (Array Char × Cursor) := do
  let given : Nat := if increment = 0 then 0
    else if 0 ≤ outer then outer.toNat + increment else increment
  let (widest, breaks, c) ← readBlockBreaks given c.bound 0 #[] c
  let indent := if given = 0 then max widest (max (outer + 1).toNat 1) else given
  let (b, c) ← readBlockLines literal indent c.bound { breaks } (← c.need 1)
  let text := match chomping with
    | .strip => b.text
    | .clip => b.text ++ b.lineEnd
    | .keep => b.text ++ b.lineEnd ++ b.breaks
  pure (text, c)

end ArrayLang.Document
