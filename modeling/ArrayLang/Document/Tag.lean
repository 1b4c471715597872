import ArrayLang.Document.Scalar
import ArrayLang.Text.Utf8

/-!
# Tags and directives

How the texts of tags and of directives are read.  A tag consists of a handle and a suffix, in which
other characters are written as octets: a percent sign and two hexadecimal digits each.
-/

namespace ArrayLang.Document

/-- A number of one or two digits at the cursor. -/
def versionPart? (c : Cursor) : Option (Nat × Cursor) := do
  let c ← c.need 1
  let digits := c.takeWhile Char.isDigit
  if digits.isEmpty || 2 < digits.length then none
  pure (digits.foldl (fun n d => n * 10 + (d.toNat - '0'.toNat)) 0, ← c.walk 1 digits.length)

/-- The handle of a tag: `!`, `!!`, `!name!`, or the start of a tag that has no handle. -/
def tagHandle? (directive : Bool) (c : Cursor) : Option (List Char × Cursor) := do
  let c ← c.need 1
  if c.head != some '!' then none
  let c ← c.advance.need 1
  let name := c.takeWhile isNameChar
  let c ← c.walk 1 name.length
  if c.head == some '!' then return ('!' :: name ++ ['!'], c.advance)
  if directive && !name.isEmpty then none
  pure ('!' :: name, c)

/-- A character that may stand in a tag. -/
def isTagChar (c : Char) : Bool :=
  isNameChar c || [';', '/', '?', ':', '@', '&', '=', '+', '$', ',', '.', '!', '~', '*', '\'', '(',
    ')', '[', ']', '%'].contains c

/-- The length of the sequence that a leading octet announces. -/
def octetSequence? (n : Nat) : Option Nat :=
  if n < 0x80 then some 1
  else if 0xc0 ≤ n && n < 0xe0 then some 2
  else if 0xe0 ≤ n && n < 0xf0 then some 3
  else if 0xf0 ≤ n && n < 0xf8 then some 4
  else none

/-- One octet written as a percent sign and two digits. -/
def octet? (c : Cursor) : Option (Nat × Cursor) := do
  let c ← c.need 3
  match c.rest with
  | '%' :: a :: b :: _ => pure ((← hexValue? a) * 16 + (← hexValue? b), c.advanceBy 3)
  | _ => none

/-- The trailing octets of an escaped character. -/
def trailingOctets? : (count : Nat) → Cursor → Option (List Nat × Cursor)
  | 0, c => some ([], c)
  | count + 1, c => do
    let (octet, c) ← octet? c
    if octet / 64 != 2 then none
    let (octets, c) ← trailingOctets? count c
    pure (octet :: octets, c)

/-- A character written as a sequence of escaped octets.  A sequence that is longer than it needs to
be, or that stands for no character, gives U+FFFD. -/
def escapedTagChar? (c : Cursor) : Option (Char × Cursor) := do
  let (octet, c) ← octet? c
  let (octets, c) ← trailingOctets? ((← octetSequence? octet) - 1) c
  match Text.leadingChar? ((octet :: octets).map UInt8.ofNat) with
  | some (ch, _) => pure (ch, c)
  | none => pure ('\ufffd', c)

/-- The characters of a tag at the cursor. -/
def tagChars? : (fuel : Nat) → Array Char → Cursor → Option (Array Char × Cursor)
  | 0, text, c => some (text, c)
  | fuel + 1, text, c => do
    let c ← c.need 1
    match c.head with
    | none => pure (text, c)
    | some ch =>
      if !isTagChar ch then pure (text, c)
      else if ch == '%' then
        let (e, c) ← escapedTagChar? c
        tagChars? fuel (text.push e) c
      else tagChars? fuel (text.push ch) c.advance

/-- The text of a tag behind its handle, which must not be empty. -/
def tagText? (c : Cursor) : Option (List Char × Cursor) := do
  let (text, c) ← tagChars? c.bound #[] c
  if text.isEmpty then none
  pure (text.toList, c)

end ArrayLang.Document
