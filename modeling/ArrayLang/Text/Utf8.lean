/-!
# Text in bytes

Bytes that need not be well-formed UTF-8 are read as a list of units: a character where a
well-formed sequence stands, and a stray byte everywhere else.  A stray byte never swallows the
bytes after it, so characters that follow it are still found.
-/

namespace ArrayLang.Text

/-- One unit of text that comes from bytes. -/
inductive Glyph where
  | char (c : Char)
  | stray (b : UInt8)
  deriving DecidableEq, Repr, Inhabited

/-- The payload of a continuation byte, if `b` is one. -/
def continuation? (b : UInt8) : Option UInt32 :=
  if b &&& 0xc0 == 0x80 then some (b &&& 0x3f).toUInt32 else none

/-- The character with code point `n`, if `n` is a scalar value of at least `least`.  The lower
bound refuses sequences that are longer than they need to be. -/
def scalar? (least n : UInt32) : Option Char :=
  if h : n.isValidChar then if least ≤ n then some ⟨n, h⟩ else none else none

/-- The character of a well-formed sequence at the front of the bytes, with its length. -/
def leadingChar? : List UInt8 → Option (Char × Nat)
  | [] => none
  | a :: rest =>
    if a < 0x80 then (scalar? 0 a.toUInt32).map (·, 1)
    else if a &&& 0xe0 == 0xc0 then
      match rest with
      | b :: _ => do
        let x ← continuation? b
        let c ← scalar? 0x80 ((a &&& 0x1f).toUInt32 <<< 6 ||| x)
        pure (c, 2)
      | [] => none
    else if a &&& 0xf0 == 0xe0 then
      match rest with
      | b :: c :: _ => do
        let x ← continuation? b
        let y ← continuation? c
        let d ← scalar? 0x800 ((a &&& 0x0f).toUInt32 <<< 12 ||| x <<< 6 ||| y)
        pure (d, 3)
      | _ => none
    else if a &&& 0xf8 == 0xf0 then
      match rest with
      | b :: c :: d :: _ => do
        let x ← continuation? b
        let y ← continuation? c
        let z ← continuation? d
        let e ← scalar? 0x10000 ((a &&& 0x07).toUInt32 <<< 18 ||| x <<< 12 ||| y <<< 6 ||| z)
        pure (e, 4)
      | _ => none
    else none

/-- The units of a list of bytes.  The first argument counts the bytes of the current character
that are still to be passed over. -/
def glyphsFrom : Nat → List UInt8 → List Glyph
  | _, [] => []
  | skip + 1, _ :: rest => glyphsFrom skip rest
  | 0, b :: rest =>
    match leadingChar? (b :: rest) with
    | some (c, len) => .char c :: glyphsFrom (len - 1) rest
    | none => .stray b :: glyphsFrom 0 rest

/-- The units of a list of bytes. -/
def glyphs (bytes : List UInt8) : List Glyph := glyphsFrom 0 bytes

/-- The units of a text. -/
def glyphsOfText (text : String) : List Glyph := text.toList.map .char

/-- The text that units stand for; stray bytes are no text. -/
def textOfGlyphs? (units : List Glyph) : Option String :=
  (units.mapM fun (g : Glyph) => match g with
    | .char c => some c
    | .stray _ => none).map String.ofList

/-- The bytes of a text. -/
def bytesOfText (text : String) : List UInt8 := text.toUTF8.data.toList

end ArrayLang.Text
