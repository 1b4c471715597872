import ArrayLang.Host.Input
import ArrayLang.Host.Interface
import ArrayLang.Machine.State

/-!
# The console

The functions of the host over an input and two outputs.  Integers, truth values and references are
printed a line each; a report prints a part of memory to the second output.
-/

namespace ArrayLang.Host

open Machine

/-- An input and two outputs. -/
structure Console where
  input : Input := .absent
  stdout : Array UInt8 := #[]
  stderr : Array UInt8 := #[]

namespace Console

/-- Print a line to the first output. -/
def print (c : Console) (line : String) : Console :=
  { c with stdout := c.stdout ++ (Text.bytesOfText (line ++ "\n")).toArray }

/-- Print a report to the second output. -/
def report (c : Console) (message : List UInt8) : Console :=
  { c with
    stderr := c.stderr ++ (Text.bytesOfText "Error: " ++ message ++ Text.bytesOfText "\n").toArray }

/-- The same input with nothing printed yet. -/
def cleared (c : Console) : Console := { c with stdout := #[], stderr := #[] }

end Console

/-- An argument that is not there. -/
def missingArg (position count : Nat) : HostError :=
  .aborted s!"runtime error: index out of range [{position}] with length {count}"

/-- Call a function of the host. -/
def Function.serve (f : Function) : HostFn Console := fun memory args console =>
  let printed (line : UInt64 → String) : Reply Console :=
    match args with
    | [] => ⟨memory, console, .error (missingArg 0 0)⟩
    | value :: _ => ⟨memory, console.print (line value), .ok []⟩
  match f with
  | .printInt => printed fun value => toString value.toInt64.toInt
  | .printBool => printed fun value => if value.toUInt32 = 0 then "False" else "True"
  | .printRef => printed fun value => toString value.toUInt32.toInt32.toInt
  | .readInt =>
    match console.input.readInt with
    | (.ok value, input) => ⟨memory, { console with input }, .ok [value.toUInt64]⟩
    | (.error e, input) => ⟨memory, { console with input }, .error (.failed e.message)⟩
  | .reportError =>
    match args with
    | offset :: length :: _ =>
      let offset := offset.toUInt32.toNat
      let length := length.toUInt32.toNat
      if memory.size < offset + length then
        let message := s!"runtime: message at {offset}+{length} is outside memory"
        ⟨memory, console, .error (.failed message)⟩
      else ⟨memory, console.report (memory.read offset length), .ok []⟩
    | _ => ⟨memory, console, .error (missingArg args.length args.length)⟩

/-- The functions of the host by name. -/
def functions (name : String) : Option (HostFn Console) :=
  (Function.ofName? name).map Function.serve

end ArrayLang.Host
