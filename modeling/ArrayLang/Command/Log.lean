import ArrayLang.Text.Blank
import ArrayLang.Text.Quoted

/-!
# Log lines

A log line has a level, a message and named values.  A value is quoted if it could not be told from
the rest of the line without quotes.
-/

namespace ArrayLang.Command

/-- A character needs quotes around the value that it stands in.  A backslash does not. -/
def needsQuotes (c : Char) : Bool :=
  if c.toNat < 128 then c.toNat < 32 || c = ' ' || c = '=' || c = '"'
  else c = '\ufffd' || Text.isBlank c || !Text.isPrintable c

/-- A value in a log line. -/
def logValue (value : String) : String :=
  if value.isEmpty || value.toList.any needsQuotes then Text.quote value else value

/-- A line for debugging. -/
def debugLine (message : String) (values : List (String × String)) : String :=
  s!"level=DEBUG msg={logValue message}" ++
    String.join (values.map fun (name, value) => s!" {name}={logValue value}") ++ "\n"

end ArrayLang.Command
