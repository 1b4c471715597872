import ArrayLang.Code.Listing

/-!
# Coloured listings

A line is coloured by its first word, with the blanks in front of it left plain.  What a style does
to a text is up to the terminal; `Style.apply` is the usual choice.
-/

namespace ArrayLang.Code

/-- How a part of a listing is shown. -/
inductive Style where
  /-- The parts of a module. -/
  | frame
  | control
  | call
  | const
  | slot
  | trap
  deriving DecidableEq, Repr

namespace Style

/-- The parameters of the escape sequence. -/
def code : Style → String
  | frame => "1"
  | control => "35"
  | call => "36"
  | const => "33"
  | slot => "32"
  | trap => "1;31"

/-- A text in a style. -/
def apply (style : Style) (text : List Char) : List Char :=
  '\x1b' :: '[' :: style.code.toList ++ 'm' :: text ++ ['\x1b', '[', 'm']

end Style

/-- The words of structured control. -/
def controlWords : List String := ["if", "else", "end", "block", "loop", "br", "br_if"]

/-- The style of a text that does not start with a blank. -/
def styleOf (text : List Char) : Option Style :=
  let word := text.takeWhile (· ≠ ' ')
  if text.head? = some '(' ∨ text = [')'] then some .frame
  else if word = "unreachable".toList then some .trap
  else if word = "call".toList then some .call
  else if ".const".toList.isSuffixOf word then some .const
  else if "local.".toList.isPrefixOf word ∨ "global.".toList.isPrefixOf word then some .slot
  else if String.ofList word ∈ controlWords then some .control
  else none

/-- A line in colour. -/
def highlight (line : List Char) (styled : Style → List Char → List Char := Style.apply) :
    List Char :=
  let text := line.dropWhile (· = ' ')
  if text.isEmpty then line
  else
    match styleOf text with
    | none => line
    | some style => line.takeWhile (· = ' ') ++ styled style text

/-- Colour every line of a text. -/
def highlightLines (styled : Style → List Char → List Char) (line : List Char) :
    List Char → List Char
  | [] => highlight line.reverse styled
  | '\n' :: rest => highlight line.reverse styled ++ '\n' :: highlightLines styled [] rest
  | c :: rest => highlightLines styled (c :: line) rest

/-- The listing of a module, plain or in colour. -/
def Module.listing (m : Module) (colour : Bool)
    (styled : Style → List Char → List Char := Style.apply) : String :=
  if colour then String.ofList (highlightLines styled [] m.text.toList) else m.text

end ArrayLang.Code
