import ArrayLang.Text.Blank
import ArrayLang.Text.Integer
import ArrayLang.Text.Quoted

/-!
# Input

Integers are read from lines, one a line.  A line ends with a line feed, in front of which one
carriage return is dropped; blanks around a number and blank lines do not count.  A line of 65536
bytes or more is refused.  Its first 65536 bytes are then read once as a line of their own, and
after that every further reading is refused.
-/

namespace ArrayLang.Host

open Text

/-- What is left of the input. -/
inductive Input where
  /-- There is no input. -/
  | absent
  | bytes (rest : List UInt8)
  /-- A line was too long; `held` is what was read of it. -/
  | jammed (held : List UInt8)
  deriving DecidableEq, Repr

/-- Why no integer can be read. -/
inductive InputError where
  | absent
  | ended
  | lineTooLong
  | notAnInteger (line : List Glyph) (why : IntegerError)
  deriving DecidableEq, Repr

/-- An error in words. -/
def InputError.message : InputError → String
  | absent => "runtime: no input stream"
  | ended => "runtime: unexpected end of input"
  | lineTooLong => "runtime: read input: bufio.Scanner: token too long"
  | notAnInteger line why =>
    let quoted := quoteGlyphs line
    let reason := match why with
      | .malformed => "invalid syntax"
      | .outOfRange => "value out of range"
    s!"runtime: invalid integer input {quoted}: strconv.ParseInt: parsing {quoted}: {reason}"

/-- A line must be shorter than this many bytes. -/
def lineLimit : Nat := 65536

/-- Drop one carriage return at the end. -/
def dropReturn (line : List UInt8) : List UInt8 :=
  if line.getLast? = some 13 then line.dropLast else line

/-- What the input offers next. -/
inductive Offer where
  | line (text : List UInt8) (rest : Input)
  | refused (e : InputError) (rest : Input)

namespace Input

/-- The number of bytes that are left. -/
def size : Input → Nat
  | absent => 0
  | bytes rest => rest.length
  | jammed held => held.length

/-- The next line. -/
def next : Input → Offer
  | absent => .refused .absent .absent
  | bytes [] => .refused .ended (.bytes [])
  | bytes rest =>
    let line := rest.takeWhile (· ≠ 10)
    if line.length < lineLimit then .line (dropReturn line) (.bytes (rest.drop (line.length + 1)))
    else .refused .lineTooLong (.jammed (rest.take lineLimit))
  | jammed [] => .refused .lineTooLong (.jammed [])
  | jammed held => .line (dropReturn held) (.jammed [])

/-- A line takes bytes from the input. -/
theorem size_lt_of_next {input rest : Input} {text : List UInt8}
    (h : input.next = .line text rest) : rest.size < input.size := by
  match input with
  | .absent => simp [next] at h
  | .bytes [] => simp [next] at h
  | .bytes (b :: bs) =>
    simp only [next] at h
    split at h
    · simp only [Offer.line.injEq] at h
      obtain ⟨-, rfl⟩ := h
      simp only [size, List.length_drop, List.length_cons]
      omega
    · simp at h
  | .jammed [] => simp [next] at h
  | .jammed (b :: bs) =>
    simp only [next, Offer.line.injEq] at h
    obtain ⟨-, rfl⟩ := h
    simp [size]

/-- Without the blanks at both ends. -/
def trim (line : List Glyph) : List Glyph :=
  let blank : Glyph → Bool
    | .char c => isBlank c
    | .stray _ => false
  ((line.dropWhile blank).reverse.dropWhile blank).reverse

/-- The characters of a line, with a replacement character for each stray byte. -/
def chars (line : List Glyph) : List Char :=
  line.map fun
    | .char c => c
    | .stray _ => '\ufffd'

/-- Read an integer.  A line that holds none is used up. -/
def readInt (input : Input) : Except InputError Int64 × Input :=
  match _h : input.next with
  | .refused e rest => (.error e, rest)
  | .line text rest =>
    let line := trim (glyphs text)
    if line.isEmpty then rest.readInt
    else
      match decimal? (chars line) with
      | .ok value => (.ok (Int64.ofInt value), rest)
      | .error why => (.error (.notAnInteger line why), rest)
termination_by input.size
decreasing_by exact size_lt_of_next _h

end Input

end ArrayLang.Host
