/-!
# Instructions

The machine has an operand stack, local and global slots, and a memory of bytes.  Control is
structured: conditionals, blocks and loops hold their own code, and a branch names the block or the
loop that it leaves or starts again.
-/

namespace ArrayLang.Code

/-- The type of a value on the operand stack. -/
inductive ValType where
  /-- No value. -/
  | none
  | i32
  | i64
  /-- A number that stands for no type. -/
  | other (code : UInt8)
  deriving DecidableEq, Repr

namespace ValType

/-- The type with a number. -/
def ofCode (code : UInt8) : ValType :=
  if code = 0 then .none else if code = 1 then .i32 else if code = 2 then .i64 else .other code

/-- How listings name a type. -/
def text : ValType → String
  | .i32 => "i32"
  | .i64 => "i64"
  | .none | .other _ => "none"

/-- The number of bytes of a value in memory. -/
def size : ValType → Nat
  | .i32 => 4
  | .i64 => 8
  | .none | .other _ => 0

end ValType

/-- An operation on two values of one type. -/
inductive ArithOp where
  | add
  | sub
  | mul
  | shl
  | shrU
  | xor
  | unknown (code : Int)
  deriving DecidableEq, Repr

namespace ArithOp

/-- The operations that the machine has, in the order of their numbers, which start with one. -/
def named : List ArithOp := [add, sub, mul, shl, shrU, xor]

/-- The operation with a number. -/
def ofCode (code : Int) : ArithOp :=
  if code < 1 then .unknown code else named[code.toNat - 1]?.getD (.unknown code)

/-- How listings name an operation. -/
def text : ArithOp → String
  | add => "add"
  | sub => "sub"
  | mul => "mul"
  | shl => "shl"
  | shrU => "shr_u"
  | xor => "xor"
  | unknown _ => "invalid"

end ArithOp

/-- A comparison of two values of one type. -/
inductive CompareOp where
  | eq
  | ne
  | ltS
  | leS
  | gtS
  | geS
  | ltU
  | unknown (code : Int)
  deriving DecidableEq, Repr

namespace CompareOp

/-- The comparisons that the machine has, in the order of their numbers. -/
def named : List CompareOp := [eq, ne, ltS, leS, gtS, geS, ltU]

/-- The comparison with a number. -/
def ofCode (code : Int) : CompareOp :=
  if code < 0 then .unknown code else named[code.toNat]?.getD (.unknown code)

/-- How listings name a comparison. -/
def text : CompareOp → String
  | eq => "eq"
  | ne => "ne"
  | ltS => "lt_s"
  | leS => "le_s"
  | gtS => "gt_s"
  | geS => "ge_s"
  | ltU => "lt_u"
  | unknown _ => "invalid"

end CompareOp

/-- A conversion between the two widths. -/
inductive ConvertOp where
  /-- Keep the low 32 bits. -/
  | wrap
  /-- Fill up with zeros. -/
  | extendU
  | unknown (code : Int)
  deriving DecidableEq, Repr

namespace ConvertOp

/-- The conversion with a number. -/
def ofCode (code : Int) : ConvertOp :=
  if code = 1 then .wrap else if code = 2 then .extendU else .unknown code

/-- How listings name a conversion. -/
def text : ConvertOp → String
  | wrap => "i32.wrap_i64"
  | extendU => "i64.extend_i32_u"
  | unknown _ => "invalid"

end ConvertOp

/-- An instruction, or one of three things that stand in code without being one. -/
inductive Instr where
  | constI64 (value : Int64)
  | constI32 (value : Int32)
  | localGet (name : String)
  | localSet (name : String)
  /-- Store the top of the stack and leave it there. -/
  | localTee (name : String)
  | globalGet (name : String)
  | globalSet (name : String)
  | arith (ty : ValType) (op : ArithOp)
  | compare (ty : ValType) (op : CompareOp)
  | convert (op : ConvertOp)
  | load (ty : ValType)
  | store (ty : ValType)
  /-- Call an imported function. -/
  | call (name : String)
  /-- Run the first branch if the top of the stack is not zero, and else the second.  Each leaves a
  value of type `result`. -/
  | ifElse (result : ValType) (thenCode elseCode : List Instr)
  /-- Code that a branch to `label` leaves. -/
  | block (label : String) (body : List Instr)
  /-- Code that a branch to `label` starts again. -/
  | loop (label : String) (body : List Instr)
  | branch (label : String)
  /-- Branch if the top of the stack is not zero. -/
  | branchIf (label : String)
  | drop
  /-- Halt the program. -/
  | trap
  /-- Nothing where an instruction is expected. -/
  | missing
  /-- A text where an instruction is expected. -/
  | stray (text : String)
  /-- Code where one instruction is expected. -/
  | nested (items : List Instr)
  deriving Repr, Inhabited

/-- Code that runs from first to last. -/
abbrev Block := List Instr

/-- Why an instruction cannot be made. -/
inductive NameError where
  | emptyCall
  | emptyGlobal
  deriving DecidableEq, Repr

/-- An error in words. -/
def NameError.message : NameError → String
  | .emptyCall => "ir: call target must be non-empty"
  | .emptyGlobal => "ir: global name must be non-empty"

namespace Instr

/-- A call, provided that its target has a name. -/
def callNamed (name : String) : Except NameError Instr :=
  if name = "" then .error .emptyCall else .ok (.call name)

/-- A read of a global slot, provided that it has a name. -/
def globalGetNamed (name : String) : Except NameError Instr :=
  if name = "" then .error .emptyGlobal else .ok (.globalGet name)

/-- A write of a global slot, provided that it has a name. -/
def globalSetNamed (name : String) : Except NameError Instr :=
  if name = "" then .error .emptyGlobal else .ok (.globalSet name)

/-- How messages name what is no instruction; empty for an instruction. -/
def strayText : Instr → String
  | missing => "<nil>"
  | stray _ => "string"
  | nested _ => "ir.Block"
  | _ => ""

end Instr

/-- Join code: nested code is put in place, and what is missing is left out. -/
def splice : List Instr → Block
  | [] => []
  | .missing :: rest => splice rest
  | .nested items :: rest => items ++ splice rest
  | instr :: rest => instr :: splice rest

end ArrayLang.Code
