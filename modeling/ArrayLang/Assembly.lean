import ArrayLang.Code.Validity
import ArrayLang.Emit.Stmt
import ArrayLang.NormalForm.Basic
import ArrayLang.Settings
import ArrayLang.Typing.Check

/-!
# Assembly

A program becomes a module: it is checked, brought to normal form and compiled, and the code is put
together with the imports, the messages and the frontier of the heap.
-/

namespace ArrayLang.Assembly

open Source Code

/-- The name of the function that runs the program. -/
def entryName : String := "main"

/-- The global slot that holds the first free address. -/
def frontierName : String := "@free_ptr"

/-- What is reported when an array cannot have its length. -/
def capacityText : String := "ArraySizeError"

/-- What is reported when an index is out of range. -/
def indexText : String := "IndexError"

/-- The messages as they lie in memory from the first address on. -/
def messageBytes : List UInt8 := Text.bytesOfText (capacityText ++ indexText)

/-- The first message in memory. -/
def capacityMessage : Emit.Message := ⟨0, Int32.ofNat capacityText.utf8ByteSize⟩

/-- The second message in memory. -/
def indexMessage : Emit.Message :=
  ⟨Int32.ofNat capacityText.utf8ByteSize, Int32.ofNat indexText.utf8ByteSize⟩

/-- The first address of the heap: the first multiple of eight behind the messages. -/
def heapStart : Nat := (messageBytes.length + 7) / 8 * 8

/-- Why a program cannot be assembled. -/
inductive Error where
  | settings (e : SettingsError)
  | typing (e : Typing.Error)
  | normalForm (e : NormalForm.Error)
  | memoryTooSmall (bytes : Int64)
  | target (e : Emit.TargetError)
  | code (e : Emit.Error)
  | untypedVariable (name : String)
  | untypedTemporary (name : String)
  | invalid (e : ModuleError)
  deriving DecidableEq, Repr

/-- An error in words. -/
def Error.message : Error → String
  | settings e => e.message
  | typing e => e.message
  | normalForm e => e.message
  | memoryTooSmall bytes =>
    s!"assemble: memory of {bytes.toInt} bytes cannot hold the data segment and one maximal array"
  | target e => e.message
  | code e => s!"assemble: {e.message}"
  | untypedVariable name => s!"assemble: variable {name}: {Emit.Untyped.bare.message}"
  | untypedTemporary name => s!"assemble: temporary {name}: {Emit.Untyped.bare.message}"
  | invalid e => s!"assemble: {e.message}"

/-- A module and the temporaries of its program. -/
structure Assembled where
  module : Module
  temporaries : List Binding

/-- What code is made for under some settings. -/
def targetOf (s : Settings) : Emit.Target where
  tier := s.tier
  maxArrayBytes := s.maxArrayBytes
  capacity := capacityMessage
  index := indexMessage
  frontier := frontierName

/-- Slots for variables. -/
def slots (untyped : String → Error) : List Binding → Except Error (List Local)
  | [] => .ok []
  | b :: rest =>
    match Layout.valType? b.ty with
    | none => .error (untyped b.name)
    | some vt => do
      let rest ← slots untyped rest
      return ⟨b.name, vt⟩ :: rest

/-- The memory cannot hold the messages and one array of the largest size.  The sum is one of signed
64-bit numbers. -/
def memoryTooSmall (s : Settings) : Bool :=
  s.tier = .array &&
    s.memoryBytes < Int64.ofNat heapStart + Int64.ofNat Layout.headerSize + s.maxArrayBytes

/-- The module around the code of a program. -/
def moduleOf (s : Settings) (locals : List Local) (body : Block) : Module where
  entry := entryName
  imports := Host.imports
  memory := ⟨Host.space, Host.memoryName, s.memoryPages⟩
  globals :=
    if s.tier = .array then [⟨frontierName, .i32, true, Int64.ofNat heapStart⟩] else []
  data := [⟨0, messageBytes⟩]
  funcs := [⟨entryName, entryName, locals, body⟩]

/-- Assemble a program.  Slots come in the order of the names of the variables, then the temporaries
as they were made, then the scratch slots. -/
def assemble (s : Settings) (program : Option (List Stmt))
    (major? : String → Option String := Text.majorVersion?) : Except Error Assembled := do
  (s.validate major?).mapError .settings
  let (env, checked) ← (Typing.check s.tier program).mapError .typing
  let (stmts, temporaries) ← (NormalForm.normalize env (some checked)).mapError .normalForm
  if memoryTooSmall s then throw (.memoryTooSmall s.memoryBytes)
  (targetOf s).validate.mapError .target
  let (code, progress) := (Emit.stmts (targetOf s) stmts).run {}
  let body ← code.mapError .code
  let vars ← slots .untypedVariable (Env.sorted env)
  let temps ← slots .untypedTemporary temporaries
  let module := moduleOf s (vars ++ temps ++ progress.scratchLocals) body
  module.validate.mapError .invalid
  return ⟨module, temporaries⟩

end ArrayLang.Assembly
