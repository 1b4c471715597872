/-!
# Integer literals

Two readers of whole numbers.  `decimal?` reads an optionally signed decimal number of 64 bits and
tells a malformed text from one whose value is out of range.  `literal?` also knows the base marks
`0x`, `0o`, `0b` and a leading zero for octal, and underscores between digits.
-/

namespace ArrayLang.Text

/-- Why a text is no integer of 64 bits. -/
inductive IntegerError where
  | malformed
  | outOfRange
  deriving DecidableEq, Repr

/-- The value of a digit or letter as a digit of a base up to thirty-six. -/
def digitValue? (c : Char) : Option Nat :=
  if '0' ≤ c ∧ c ≤ '9' then some (c.toNat - '0'.toNat)
  else if 'a' ≤ c ∧ c ≤ 'z' then some (c.toNat - 'a'.toNat + 10)
  else if 'A' ≤ c ∧ c ≤ 'Z' then some (c.toNat - 'A'.toNat + 10)
  else none

/-- Append the digits to `n` in the given base.  A value that leaves 64 bits is reported at once,
whatever stands after it. -/
def digitsFrom (base : Nat) : Nat → List Char → Except IntegerError Nat
  | n, [] => .ok n
  | n, c :: rest =>
    match digitValue? c with
    | none => .error .malformed
    | some d =>
      if base ≤ d then .error .malformed
      else if 0x10000000000000000 ≤ n * base + d then .error .outOfRange
      else digitsFrom base (n * base + d) rest

/-- An unsigned number of 64 bits in the given base. -/
def unsigned? (base : Nat) : List Char → Except IntegerError Nat
  | [] => .error .malformed
  | digits => digitsFrom base 0 digits

/-- Put a sign on a magnitude, within the range of signed 64-bit numbers. -/
def signed? (negative : Bool) : Except IntegerError Nat → Except IntegerError Int
  | .error e => .error e
  | .ok n =>
    if negative then if n ≤ 0x8000000000000000 then .ok (-n) else .error .outOfRange
    else if n < 0x8000000000000000 then .ok n else .error .outOfRange

/-- A sign at the front of a text, if there is one, and what follows it. -/
def splitSign : List Char → Bool × List Char
  | '-' :: rest => (true, rest)
  | '+' :: rest => (false, rest)
  | text => (false, text)

/-- A signed number of 64 bits in the given base. -/
def integer? (base : Nat) (text : List Char) : Except IntegerError Int :=
  let (negative, digits) := splitSign text
  signed? negative (unsigned? base digits)

/-- A signed decimal number of 64 bits. -/
def decimal? (text : List Char) : Except IntegerError Int := integer? 10 text

/-- The base that the front of an unsigned literal announces, and the digits after the mark. -/
def splitBase : List Char → Nat × List Char
  | '0' :: mark :: c :: rest =>
    if mark = 'b' ∨ mark = 'B' then (2, c :: rest)
    else if mark = 'o' ∨ mark = 'O' then (8, c :: rest)
    else if mark = 'x' ∨ mark = 'X' then (16, c :: rest)
    else (8, mark :: c :: rest)
  | '0' :: rest => (8, rest)
  | digits => (10, digits)

/-- Underscores stand only behind a digit and in front of one.  `digitBefore` says whether a digit
or a base mark stands directly before. -/
def underscoresSeparate (hex : Bool) : (digitBefore : Bool) → List Char → Bool
  | _, [] => true
  | digitBefore, '_' :: rest =>
    digitBefore && match rest with
      | [] => false
      | c :: _ =>
        (c.isDigit || hex && (digitValue? c).any (· < 16)) && underscoresSeparate hex false rest
  | _, c :: rest =>
    underscoresSeparate hex (c.isDigit || hex && (digitValue? c).any (· < 16)) rest

/-- Underscores in an unsigned literal separate digits or follow the base mark. -/
def underscoresFit (text : List Char) : Bool :=
  match text with
  | '0' :: mark :: rest =>
    if mark ∈ ['b', 'B', 'o', 'O'] then underscoresSeparate false true rest
    else if mark ∈ ['x', 'X'] then underscoresSeparate true true rest
    else underscoresSeparate false false text
  | _ => underscoresSeparate false false text

/-- The magnitude of an unsigned literal with base mark and underscores. -/
def magnitude? (text : List Char) : Except IntegerError Nat :=
  if text.isEmpty then .error .malformed
  else
    let (base, digits) := splitBase text
    match digitsFrom base 0 (digits.filter (· ≠ '_')) with
    | .error e => .error e
    | .ok n => if text.contains '_' && !underscoresFit text then .error .malformed else .ok n

/-- A signed integer literal of 64 bits. -/
def literal? (text : List Char) : Except IntegerError Int :=
  let (negative, digits) := splitSign text
  signed? negative (magnitude? digits)

end ArrayLang.Text
