import ArrayLang.Code.Instr

/-!
# Modules

A module holds functions without parameters, the functions that it imports, its global slots, and
what its memory holds at the start.
-/

namespace ArrayLang.Code

/-- The number of bytes of a page of memory. -/
def pageSize : Nat := 65536

/-- A local slot. -/
structure Local where
  name : String
  ty : ValType
  deriving DecidableEq, Repr

/-- A function that the host provides. -/
structure Import where
  space : String
  name : String
  params : List ValType
  results : List ValType
  deriving DecidableEq, Repr

/-- A global slot. -/
structure Global where
  name : String
  ty : ValType
  isMutable : Bool
  init : Int64
  deriving DecidableEq, Repr

/-- Bytes that are in memory at the start. -/
structure Segment where
  offset : Int32
  bytes : List UInt8
  deriving DecidableEq, Repr

/-- A memory; an empty `space` means that the module has its own. -/
structure MemoryDecl where
  space : String := ""
  name : String := ""
  pages : UInt32 := 0
  deriving DecidableEq, Repr

/-- The number of bytes of a memory. -/
def MemoryDecl.size (m : MemoryDecl) : Nat := m.pages.toNat * pageSize

/-- A function; an empty `exported` means that it is not exported. -/
structure Func where
  name : String
  exported : String := ""
  locals : List Local := []
  body : Block := []
  deriving Repr

/-- A module. -/
structure Module where
  entry : String
  imports : List Import := []
  memory : MemoryDecl := {}
  globals : List Global := []
  data : List Segment := []
  funcs : List Func := []
  deriving Repr

/-- The function with a name. -/
def Module.func? (m : Module) (name : String) : Option Func := m.funcs.find? fun f => f.name = name

end ArrayLang.Code
