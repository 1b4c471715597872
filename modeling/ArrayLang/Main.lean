import ArrayLang.Command.Run

/-!
# The program

Reads what the command asks for, and writes what it leaves behind.
-/

namespace ArrayLang

/-- The contents of a file as a text, or why it cannot be read. -/
def readText (path : String) : IO (Except String String) := do
  try
    let bytes ← IO.FS.readBinFile path
    return .ok ((String.fromUTF8? bytes).getD "\x00")
  catch
    | .noFileOrDirectory .. => return .error s!"open {path}: no such file or directory"
    | e => return .error s!"open {path}: {e}"

/-- All of the input. -/
def readInput : IO ByteArray := do (← IO.getStdin).readBinToEnd

/-- Write a result and return its code. -/
def finish (r : Command.Result) : IO UInt32 := do
  (← IO.getStdout).write ⟨r.stdout⟩
  (← IO.getStderr).write ⟨r.stderr⟩
  return r.code

end ArrayLang

open ArrayLang

/-- Run the command. -/
def main (args : List String) : IO UInt32 := do
  match Command.request args with
  | .error result => finish result
  | .ok r =>
    let config ← readText r.options.config
    let program ← readText r.file
    let fromInput := r.file = "-"
    let input ← if fromInput then readInput else pure .empty
    let files (path : String) := if path = r.options.config then config else program
    match r.job files ((String.fromUTF8? input).getD "\x00") with
    | .error result => finish result
    | .ok job =>
      let rest ← if job.readsInput && !fromInput then readInput else pure .empty
      finish (job.result (.bytes rest.data.toList) (← (← IO.getStdout).isTty))
