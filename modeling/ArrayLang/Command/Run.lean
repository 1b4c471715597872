import ArrayLang.Assembly
import ArrayLang.Code.Colour
import ArrayLang.Command.Flags
import ArrayLang.Command.Log
import ArrayLang.Host.Console
import ArrayLang.Machine.Run
import ArrayLang.Source.Reading

/-!
# The command

The command compiles the program in a file and runs it, or prints its listing.  It goes in three
steps, between which the outer layer reads files and input: the arguments give a request, the
request and the files give a job, and the job and the input give the result.
-/

namespace ArrayLang.Command

open Source

/-- What the command leaves behind. -/
structure Result where
  code : UInt32
  stdout : Array UInt8
  stderr : Array UInt8

/-- How the command is used. -/
def usage : String :=
  "Usage: arrayc [flags] <program.yaml>\n\n" ++
  "Compile an array-language program for the structured stack machine and run it.\n\n" ++
  "Examples:\n" ++
  "  arrayc examples/sum.yaml\n" ++
  "  arrayc -emit -lang loop examples/count.yaml\n\n" ++
  "Flags:\n" ++
  "  -config string\n    \tPath to a YAML compiler configuration\n" ++
  "  -debug\n    \tEnable debug logging\n" ++
  "  -emit\n    \tPrint the module listing instead of running it\n" ++
  "  -lang string\n    \tLanguage tier to accept (array, loop)\n" ++
  "  -no-color\n    \tDisable colored listings\n"

/-- What the arguments ask for: options and a program. -/
structure Request where
  options : Options
  file : String
  deriving DecidableEq, Repr

/-- An error message after what was already written. -/
def failure (written message : String) : Result :=
  ⟨1, #[], (Text.bytesOfText (written ++ "arrayc: " ++ message ++ "\n")).toArray⟩

/-- The request of the arguments. -/
def request (args : List String) : Except Result Request :=
  match readFlags {} args with
  | .error .help => .error ⟨0, #[], (Text.bytesOfText usage).toArray⟩
  | .error e => .error ⟨2, #[], (Text.bytesOfText (e.message ++ usage)).toArray⟩
  | .ok (options, [file]) => .ok ⟨options, file⟩
  | .ok _ => .error (failure usage "exactly one program file required")

/-- A module to list or to run, after log lines. -/
structure Job where
  options : Options
  log : String
  module : Code.Module

/-- The contents of a file, or why it cannot be read. -/
abbrev Files := String → Except String String

/-- The settings that a request asks for. -/
def Request.settings (r : Request) (files : Files) : Except String Settings := do
  let path := r.options.config
  let loaded ←
    if path = "" then .ok Settings.standard
    else
      match files path with
      | .error e => .error s!"config: read {path}: {e}"
      | .ok text => (Settings.ofText text).mapError fun e => s!"{path}: {e.message}"
  if r.options.lang = "" then return loaded
  let settings := { loaded with lang := r.options.lang }
  settings.validate.mapError SettingsError.message
  return settings

/-- The text of the program; a dash stands for the input. -/
def Request.source (r : Request) (files : Files) (input : String) : Except String String :=
  if r.file = "-" then .ok input else (files r.file).mapError fun e => s!"read program: {e}"

/-- The log lines of an assembled program. -/
def assembledLine (s : Settings) (a : Assembly.Assembled) : String :=
  let main := a.module.func? a.module.entry
  debugLine "assembled module"
    [("lang", s.lang),
      ("locals", toString ((main.map fun f => f.locals.length).getD 0)),
      ("temporaries", toString a.temporaries.length),
      ("instructions", toString ((main.map fun f => (Code.lines f.body).length).getD 0)),
      ("data_bytes", toString Assembly.messageBytes.length),
      ("heap_start", toString Assembly.heapStart)]

/-- The log line of a program that was read. -/
def decodedLine (s : Settings) (file : String) (program : List Stmt) : String :=
  debugLine "Decoded program"
    [("file", file), ("statements", toString program.length), ("lang", s.lang)]

/-- The job of a request; `input` is the text that a dash stands for. -/
def Request.job (r : Request) (files : Files) (input : String) : Except Result Job := do
  let settings ← (r.settings files).mapError (failure "")
  let text ← (r.source files input).mapError (failure "")
  let program ← (readProgram text).mapError fun e => failure "" s!"{r.file}: {e.message}"
  let decoded := if r.options.debug then decodedLine settings r.file program else ""
  let assembled ← (Assembly.assemble settings (some program)).mapError fun e =>
    failure decoded s!"{r.file}: {e.message}"
  let log := if r.options.debug then decoded ++ assembledLine settings assembled else ""
  return ⟨r.options, log, assembled.module⟩

/-- The program of a job may ask for input. -/
def Job.readsInput (j : Job) : Bool :=
  !j.options.emit && j.module.funcs.any fun f =>
    (Code.lines f.body).any fun line => line.text = "call $" ++ Host.Function.readInt.name

/-- More iterations than a run can make. -/
def unlimited : Nat := 1 <<< 62

/-- The result of a run.  A trap is no error of the command: the program itself has reported it. -/
def Job.execute (j : Job) (input : Host.Input) : Result :=
  match Machine.load (some j.module) Host.functions { input } with
  | .error e => failure j.log s!"load module: {e.message}"
  | .ok machine =>
    let (outcome, machine) := machine.run unlimited
    let out := machine.host.stdout
    let err := (Text.bytesOfText j.log).toArray ++ machine.host.stderr
    match outcome with
    | .ok () => ⟨0, out, err⟩
    | .error (.trap t) =>
      let halt : Machine.Halt := .trap t
      let line :=
        if j.options.debug then debugLine "Program trapped" [("error", halt.message)] else ""
      ⟨1, out, err ++ (Text.bytesOfText line).toArray⟩
    | .error e =>
      ⟨1, out, err ++ (Text.bytesOfText s!"arrayc: run: {e.message}\n").toArray⟩

/-- The result of a job; `colour` tells whether the output can show it. -/
def Job.result (j : Job) (input : Host.Input) (colour : Bool) : Result :=
  if j.options.emit then
    let listing := j.module.listing (colour && !j.options.noColor)
    ⟨0, (Text.bytesOfText listing).toArray, (Text.bytesOfText j.log).toArray⟩
  else j.execute input

/-- The result of the command on files and an input.  A program that is read from the input leaves
nothing of it. -/
def run (args : List String) (files : Files) (input : String) : Result :=
  match request args with
  | .error result => result
  | .ok r =>
    match r.job files input with
    | .error result => result
    | .ok j =>
      let rest := if r.file = "-" then [] else Text.bytesOfText input
      j.result (.bytes rest) false

end ArrayLang.Command
