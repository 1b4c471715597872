/-!
# Versions

A version is `vMAJOR[.MINOR[.PATCH[-PRE][+BUILD]]]`.  Numbers have no leading zeros, nor have the
identifiers of the pre-release part that are all digits.
-/

namespace ArrayLang.Text

/-- A number without leading zeros at the front of a text, and what follows it. -/
def versionNumber? (text : List Char) : Option (List Char × List Char) :=
  let digits := text.takeWhile Char.isDigit
  let rest := text.dropWhile Char.isDigit
  match digits with
  | [] => none
  | '0' :: _ :: _ => none
  | _ => some (digits, rest)

/-- A character of a pre-release or build identifier. -/
def isIdentifierChar (c : Char) : Bool := c.isAlphanum || c == '-'

/-- The dot-separated identifiers of a text. -/
def identifiers (text : List Char) : List (List Char) :=
  text.splitOn '.'

/-- Non-empty identifiers separated by dots; with `strict` an identifier that is all digits has no
leading zero. -/
def identifiersFit (strict : Bool) (text : List Char) : Bool :=
  (identifiers text).all fun part =>
    !part.isEmpty && part.all isIdentifierChar &&
      !(strict && part.all Char.isDigit && part.length > 1 && part.head? == some '0')

/-- What may follow a full version: a pre-release part, a build part, both or none. -/
def versionSuffixFits (text : List Char) : Bool :=
  let build (text : List Char) : Bool := match text with
    | [] => true
    | '+' :: rest => identifiersFit false rest
    | _ => false
  match text with
  | '-' :: rest =>
    identifiersFit true (rest.takeWhile (· ≠ '+')) && build (rest.dropWhile (· ≠ '+'))
  | text => build text

/-- The number after the major one, the patch number and the suffix, as far as they are there. -/
def versionTailFits : List Char → Bool
  | [] => true
  | '.' :: rest =>
    match versionNumber? rest with
    | none => false
    | some (_, []) => true
    | some (_, '.' :: rest) =>
      match versionNumber? rest with
      | none => false
      | some (_, suffix) => versionSuffixFits suffix
    | some _ => false
  | _ => false

/-- The major part of a version, `v` included; nothing if the text is no version. -/
def majorVersion? (text : String) : Option String :=
  match text.toList with
  | 'v' :: rest =>
    match versionNumber? rest with
    | none => none
    | some (major, tail) =>
      if versionTailFits tail then some (String.ofList ('v' :: major)) else none
  | _ => none

end ArrayLang.Text
