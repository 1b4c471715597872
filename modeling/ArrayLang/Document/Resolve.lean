import ArrayLang.Text.Integer
import ArrayLang.Text.Real
import ArrayLang.Text.Timestamp

/-!
# Resolution of scalars

What a plain scalar means is seen from its text: null, a truth value, a number, a point in time, or
else a text.  Tags are kept in their short form, `!!int` for an integer.
-/

namespace ArrayLang.Document

/-- What a scalar stands for. -/
inductive Meaning where
  | null
  | bool (b : Bool)
  | int (n : Int)
  | float (x : Text.Real)
  | timestamp
  | text
  deriving DecidableEq, Repr

/-- The short tag of a meaning. -/
def Meaning.tag : Meaning → String
  | .null => "!!null"
  | .bool _ => "!!bool"
  | .int _ => "!!int"
  | .float _ => "!!float"
  | .timestamp => "!!timestamp"
  | .text => "!!str"

/-- The texts with a meaning of their own. -/
def namedMeaning? (text : String) : Option Meaning :=
  if ["true", "True", "TRUE"].contains text then some (.bool true)
  else if ["false", "False", "FALSE"].contains text then some (.bool false)
  else if ["", "~", "null", "Null", "NULL"].contains text then some .null
  else if [".nan", ".NaN", ".NAN"].contains text then some (.float .nan)
  else if [".inf", ".Inf", ".INF", "+.inf", "+.Inf", "+.INF"].contains text then
    some (.float (.infinite false))
  else if ["-.inf", "-.Inf", "-.INF"].contains text then some (.float (.infinite true))
  else none

/-- An integer of 64 bits, signed or unsigned, from either of two readers. -/
def wideInteger? (signed : Except Text.IntegerError Int) (unsigned : Except Text.IntegerError Nat) :
    Option Int :=
  match signed with
  | .ok n => some n
  | .error _ => match unsigned with
    | .ok n => some n
    | .error _ => none

/-- A number behind one of the marks `0b` and `0o` that carries its sign behind the mark, or a
negative number with such a mark. -/
def markedInteger? (text : List Char) : Option Int :=
  match text with
  | '0' :: 'b' :: rest => wideInteger? (Text.integer? 2 rest) (Text.unsigned? 2 rest)
  | '-' :: '0' :: 'b' :: rest => (Text.integer? 2 ('-' :: rest)).toOption
  | '0' :: 'o' :: rest => wideInteger? (Text.integer? 8 rest) (Text.unsigned? 8 rest)
  | '-' :: '0' :: 'o' :: rest => (Text.integer? 8 ('-' :: rest)).toOption
  | _ => none

/-- The meaning of a text that starts with a sign or a digit and is no point in time. -/
def number? (text : List Char) : Option Meaning :=
  let bare := text.filter (· ≠ '_')
  match wideInteger? (Text.literal? bare) (Text.magnitude? bare) with
  | some n => some (.int n)
  | none =>
    match Text.real? bare with
    | some x => some (.float x)
    | none => (markedInteger? bare).map .int

/-- A text that starts with a point is a number if it reads as one, with underscores between
digits. -/
def pointNumber? (text : List Char) : Option Meaning :=
  if text.contains '_' && !Text.underscoresFit text then none
  else (Text.real? (text.filter (· ≠ '_'))).map .float

/-- The meaning of a scalar under a tag; the empty tag leaves the choice to the text.  Texts and
binary data are taken as they are, and only a text without tag or with a matching one is tried as a
point in time. -/
def meaning (tag text : String) : Meaning :=
  if tag == "!!str" || tag == "!!binary" then .text
  else
    match namedMeaning? text with
    | some m => m
    | none =>
      match text.toList with
      | [] => .null
      | c :: rest =>
        if c == '.' then (pointNumber? (c :: rest)).getD .text
        else if c == '+' || c == '-' || c.isDigit then
          if (tag == "" || tag == "!!timestamp") && Text.isTimestamp (c :: rest) then .timestamp
          else (number? (c :: rest)).getD .text
        else .text

/-- The meaning of a scalar under a tag, if the two agree.  An integer may stand for a real
number. -/
def resolve? (tag text : String) : Option Meaning :=
  let m := meaning tag text
  if tag == "" || tag == m.tag || tag == "!!str" || tag == "!!binary" then some m
  else match tag, m with
    | "!!float", .int n =>
      if -0x8000000000000000 ≤ n ∧ n < 0x8000000000000000 then
        (Text.nearestReal? (n < 0) n.natAbs 1).map .float
      else none
    | _, _ => none

/-- The short form of a tag. -/
def shortTag (tag : String) : String :=
  let long := "tag:yaml.org,2002:"
  if long.toList.isPrefixOf tag.toList then
    String.ofList ('!' :: '!' :: tag.toList.drop long.length)
  else tag

end ArrayLang.Document
