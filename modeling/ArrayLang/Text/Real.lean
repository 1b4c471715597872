import ArrayLang.Text.Integer

/-!
# Real literals

Decimal literals with a fraction and an exponent, read as exact numbers and rounded to the nearest
binary number with a 53-bit significand, ties to the even one.  A literal beyond the largest such
number is refused.  `Real.truncate` drops the fraction.
-/

namespace ArrayLang.Text

/-- A real number as a document can hold it.  A finite one is `significand * 2 ^ exponent`. -/
inductive Real where
  | nan
  | infinite (negative : Bool)
  | finite (negative : Bool) (significand : Nat) (exponent : Int)
  deriving DecidableEq, Repr

/-- The parts of a decimal literal: `digits * 10 ^ exponent`. -/
structure DecimalParts where
  negative : Bool
  digits : Nat
  exponent : Int
  deriving DecidableEq, Repr

/-- The number that a list of decimal digits denotes. -/
def decimalValue (digits : List Char) : Nat :=
  digits.foldl (fun n c => n * 10 + (c.toNat - '0'.toNat)) 0

/-- The exponent part at the end of a literal; a literal may lack it. -/
def exponentPart? : List Char → Option Int
  | [] => some 0
  | e :: rest =>
    if e = 'e' ∨ e = 'E' then
      let (negative, digits) := splitSign rest
      if digits.isEmpty || !digits.all Char.isDigit then none
      else some (if negative then -(decimalValue digits : Int) else decimalValue digits)
    else none

/-- The parts of a literal with an optional sign, at least one digit around an optional point, and
an optional exponent. -/
def decimalParts? (text : List Char) : Option DecimalParts :=
  let (negative, body) := splitSign text
  let whole := body.takeWhile Char.isDigit
  let rest := body.dropWhile Char.isDigit
  let (fraction, tail) := match rest with
    | '.' :: rest => (rest.takeWhile Char.isDigit, rest.dropWhile Char.isDigit)
    | rest => ([], rest)
  if whole.isEmpty && fraction.isEmpty then none
  else do
    let exponent ← exponentPart? tail
    pure { negative, digits := decimalValue (whole ++ fraction),
           exponent := exponent - fraction.length }

/-- The quotient `n / d` rounded to the nearest whole number, a half going to the even one. -/
def roundQuotient (n d : Nat) : Nat :=
  let q := n / d
  let r := n % d
  if 2 * r < d then q else if d < 2 * r then q + 1 else if q % 2 = 0 then q else q + 1

/-- The power of two by which `n / d` has to be divided so that 53 bits stand before the point. -/
def binaryExponent (n d : Nat) : Int :=
  let guess : Int := (Nat.log2 n : Int) - Nat.log2 d - 53
  let fits (e : Int) : Bool :=
    if 0 ≤ e then n < d <<< (e.toNat + 53) else n <<< (-e).toNat < d <<< 53
  let e := if fits guess then guess else if fits (guess + 1) then guess + 1 else guess + 2
  max e (-1074)

/-- The nearest number with a 53-bit significand to `n / d`; nothing if it is too large. -/
def nearestReal? (negative : Bool) (n d : Nat) : Option Real :=
  if n = 0 then some (.finite negative 0 0)
  else
    let e := binaryExponent n d
    let m := if 0 ≤ e then roundQuotient n (d <<< e.toNat)
      else roundQuotient (n <<< (-e).toNat) d
    if 971 < e || (e == 971 && 1 <<< 53 ≤ m) then none else some (.finite negative m e)

/-- The real number of a decimal literal.  Exponents far outside the range are settled before any
power of ten is formed. -/
def DecimalParts.real? (parts : DecimalParts) : Option Real :=
  let size : Int := (toString parts.digits).length + parts.exponent
  if parts.digits = 0 || size < -400 then some (.finite parts.negative 0 0)
  else if 400 < size then none
  else if 0 ≤ parts.exponent then
    nearestReal? parts.negative (parts.digits * Nat.pow 10 parts.exponent.toNat) 1
  else nearestReal? parts.negative parts.digits (Nat.pow 10 (-parts.exponent).toNat)

/-- The real number that a decimal literal denotes. -/
def real? (text : List Char) : Option Real := do (← decimalParts? text).real?

/-- The whole part of a finite number. -/
def Real.truncate : Real → Option Int
  | .finite negative m e =>
    let n : Nat := if 0 ≤ e then m <<< e.toNat else m >>> (-e).toNat
    some (if negative then -n else n)
  | _ => none

end ArrayLang.Text
