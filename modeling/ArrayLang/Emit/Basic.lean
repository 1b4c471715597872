import ArrayLang.Code.Module
import ArrayLang.Emit.Error
import ArrayLang.Host.Interface
import ArrayLang.Layout

/-!
# Making code

Code generation counts the loops it has made labels for and remembers whether it used the scratch
slots.  Both are kept when it fails.
-/

namespace ArrayLang.Emit

open Source Code

/-- Where a message lies in memory. -/
structure Message where
  offset : Int32
  length : Int32
  deriving DecidableEq, Repr

/-- What code is made for. -/
structure Target where
  tier : Tier
  /-- The largest number of bytes that the elements of an array may take. -/
  maxArrayBytes : Int64
  /-- What is reported when an array cannot have its length. -/
  capacity : Message
  /-- What is reported when an index is out of range. -/
  index : Message
  /-- The global slot that holds the first free address. -/
  frontier : String
  deriving DecidableEq, Repr

/-- Why no code can be made for a target. -/
inductive TargetError where
  | arraySizeNotPositive (size : Int64)
  | noFrontier
  deriving DecidableEq, Repr

/-- An error in words. -/
def TargetError.message : TargetError → String
  | arraySizeNotPositive size =>
    s!"codegen: max array byte size must be positive (got {size.toInt})"
  | noFrontier => "codegen: free pointer global must be named"

/-- Check a target.  Only the array tier needs sizes and a frontier. -/
def Target.validate (t : Target) : Except TargetError Unit :=
  if t.tier = .array then
    if t.maxArrayBytes ≤ 0 then .error (.arraySizeNotPositive t.maxArrayBytes)
    else if t.frontier = "" then .error .noFrontier
    else .ok ()
  else .ok ()

/-- What is remembered from one piece of code to the next. -/
structure Progress where
  /-- The number of loops that have labels. -/
  loops : Nat := 0
  /-- The scratch slots are in use. -/
  scratch : Bool := false
  deriving DecidableEq, Repr

/-- A step of code generation. -/
abbrev Emission := ExceptT Error (StateM Progress)

/-- The scratch slot for the array under construction. -/
def arraySlot : String := "@array"

/-- The scratch slot for the next element to be filled. -/
def cursorSlot : String := "@cursor"

/-- The scratch slots that code uses so far. -/
def Progress.scratchLocals (p : Progress) : List Local :=
  if p.scratch then [⟨arraySlot, .i32⟩, ⟨cursorSlot, .i32⟩] else []

/-- The labels of a loop: the block around it, and the loop itself. -/
structure LoopLabels where
  exit : String
  start : String
  deriving DecidableEq, Repr

/-- The labels of the loop with a number. -/
def loopLabels (kind : String) (number : Nat) : LoopLabels :=
  ⟨s!"{kind}_exit_{number}", s!"{kind}_start_{number}"⟩

/-- Make labels for a loop. -/
def freshLabels (kind : String) : Emission LoopLabels := do
  modify fun p => { p with loops := p.loops + 1 }
  return loopLabels kind (← get).loops

/-- Use the scratch slots. -/
def useScratch : Emission Unit := modify fun p => { p with scratch := true }

/-- A constant from a natural number. -/
def i32Const (n : Nat) : Instr := .constI32 (Int32.ofNat n)

/-- Nodes of a tier are part of the language. -/
def requireTier (t : Target) (what : String) (needed : Tier) : Emission Unit :=
  if t.tier.admits needed then return () else throw (.tier what needed)

/-- An expression is typed and part of the language. -/
def accept (t : Target) (e : Expr) : Emission Unit := do
  if !e.ty.isValid then throw (.untyped (.node e.kindText))
  requireTier t e.kindText e.tier

/-- How a value of a type is represented. -/
def representation (ty : Ty) (otherwise : Untyped) : Emission ValType :=
  match Layout.valType? ty with
  | some vt => return vt
  | none => throw (.untyped otherwise)

/-- The element type of an array type. -/
def elemType (ty : Ty) : Emission Ty :=
  match Layout.elemType? ty with
  | some elem => return elem
  | none => throw (.untyped (.noElement ty))

/-- The code of a literal or a variable. -/
def atomCode : Expr → Block
  | .int _ value => [.constI64 value]
  | .bool _ value => [.constI32 (if value then 1 else 0)]
  | .var _ name => [.localGet name]
  | _ => []

/-- Code for an operand that must be a literal or a variable. -/
def atom (t : Target) (what : String) (e : Expr) : Emission Block := do
  if !e.isAtomic then throw (.notAtomic what e.kindText)
  accept t e
  return atomCode e

end ArrayLang.Emit
