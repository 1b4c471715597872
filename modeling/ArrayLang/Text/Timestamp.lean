/-!
# Timestamps

The forms in which a document writes a point in time: a date `2001-1-2`, alone or followed by a
time of day.  After `T` or `t` the time ends with a zone; after spaces it has none.  The date must
exist.
-/

namespace ArrayLang.Text

/-- A number of one or two digits at the front of a text. -/
def shortNumber? : List Char → Option (Nat × List Char)
  | a :: b :: rest =>
    if a.isDigit then
      if b.isDigit then some ((a.toNat - 48) * 10 + (b.toNat - 48), rest)
      else some (a.toNat - 48, b :: rest)
    else none
  | [a] => if a.isDigit then some (a.toNat - 48, []) else none
  | [] => none

/-- The rest of a text that starts with the character `c`. -/
def after? (c : Char) : List Char → Option (List Char)
  | d :: rest => if c = d then some rest else none
  | [] => none

/-- The number of days of a month. -/
def daysOfMonth (year month : Nat) : Nat :=
  if month = 2 then
    if year % 4 = 0 ∧ (year % 100 ≠ 0 ∨ year % 400 = 0) then 29 else 28
  else if month ∈ [4, 6, 9, 11] then 30
  else 31

/-- A year of four digits, a month and a day that exist, and what follows them. -/
def date? : List Char → Option (List Char)
  | a :: b :: c :: d :: rest => do
    if !(a.isDigit && b.isDigit && c.isDigit && d.isDigit) then none
    let year := [a, b, c, d].foldl (fun n x => n * 10 + (x.toNat - 48)) 0
    let (month, rest) ← shortNumber? (← after? '-' rest)
    let (day, rest) ← shortNumber? (← after? '-' rest)
    if 1 ≤ month ∧ month ≤ 12 ∧ 1 ≤ day ∧ day ≤ daysOfMonth year month then some rest else none
  | _ => none

/-- A fraction of a second is passed over if there is one. -/
def dropFraction : List Char → List Char
  | mark :: d :: rest =>
    if (mark = '.' ∨ mark = ',') ∧ d.isDigit then rest.dropWhile Char.isDigit
    else mark :: d :: rest
  | text => text

/-- A time of day with an optional fraction, and what follows it. -/
def timeOfDay? (text : List Char) : Option (List Char) := do
  let (hour, rest) ← shortNumber? text
  let (minute, rest) ← shortNumber? (← after? ':' rest)
  let (second, rest) ← shortNumber? (← after? ':' rest)
  if hour < 24 ∧ minute < 60 ∧ second < 60 then some (dropFraction rest) else none

/-- A time zone at the end of a text: `Z`, or an offset in hours and minutes. -/
def endsWithZone : List Char → Bool
  | ['Z'] => true
  | [sign, a, b, ':', c, d] =>
    (sign = '+' || sign = '-') && a.isDigit && b.isDigit && c.isDigit && d.isDigit &&
      (a.toNat - 48) * 10 + (b.toNat - 48) ≤ 24 && (c.toNat - 48) * 10 + (d.toNat - 48) ≤ 60
  | _ => false

/-- A text that denotes a point in time. -/
def isTimestamp (text : List Char) : Bool :=
  match date? text with
  | none => false
  | some [] => true
  | some (sep :: rest) =>
    if sep = 'T' ∨ sep = 't' then (timeOfDay? rest).any endsWithZone
    else if sep = ' ' then (timeOfDay? (rest.dropWhile (· = ' '))).any List.isEmpty
    else false

end ArrayLang.Text
