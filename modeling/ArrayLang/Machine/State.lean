import ArrayLang.Code.Module
import ArrayLang.Machine.Memory
import ArrayLang.Text.Quoted

/-!
# States of the machine

A state holds the memory, the global and local slots, the operand stack, the state of the host, and
how many more iterations of loops may start.  A step goes on, branches, or halts.
-/

namespace ArrayLang.Machine

open Code

/-- Named slots with their values, in the order of declaration. -/
abbrev Slots := List (String × UInt64)

namespace Slots

/-- The value of a slot. -/
def find? (slots : Slots) (name : String) : Option UInt64 :=
  match slots with
  | [] => none
  | (n, v) :: rest => if n = name then some v else find? rest name

/-- The value of a slot; a slot that is not there holds zero. -/
def get (slots : Slots) (name : String) : UInt64 := (slots.find? name).getD 0

/-- Change the value of a slot. -/
def set (slots : Slots) (name : String) (value : UInt64) : Slots :=
  match slots with
  | [] => [(name, value)]
  | (n, v) :: rest => if n = name then (n, value) :: rest else (n, v) :: set rest name value

@[simp] theorem find?_set (slots : Slots) (name other : String) (value : UInt64) :
    (slots.set name value).find? other =
      if other = name then some value else slots.find? other := by
  induction slots with
  | nil => simp [set, find?, eq_comm]
  | cons slot rest ih =>
    obtain ⟨n, v⟩ := slot
    by_cases hn : n = name
    · subst hn
      by_cases ho : n = other
      · simp [set, find?, ho]
      · simp [set, find?, ho, Ne.symm ho]
    · by_cases ho : n = other
      · subst ho
        simp [set, find?, hn]
      · simp [set, find?, hn, ho, ih]

@[simp] theorem get_set (slots : Slots) (name other : String) (value : UInt64) :
    (slots.set name value).get other = if other = name then value else slots.get other := by
  unfold get
  rw [find?_set]
  split <;> rfl

end Slots

/-- Why a program is stopped by a check of the machine. -/
inductive Trap where
  | unreachable
  | outOfBounds (address : UInt32)
  deriving DecidableEq, Repr

/-- What a function of the host may do instead of answering. -/
inductive HostError where
  /-- It fails with a message. -/
  | failed (message : String)
  /-- It cannot go on. -/
  | aborted (message : String)
  deriving DecidableEq, Repr

/-- What can be wrong with a program that runs. -/
inductive Fault where
  | underflow
  | underflowCalling (name : String)
  | unknownFunction (name : String)
  | hostFailed (name message : String)
  | resultCount (name : String) (got want : Nat)
  | unsupportedOperation (ty : ValType) (op : ArithOp)
  | unsupportedComparisonType (ty : ValType)
  | unsupportedComparison (code : Int)
  | unsupportedConversion (code : Int)
  | unsupportedLoad (ty : ValType)
  | unsupportedStore (ty : ValType)
  | unsupportedInstr (kind : String)
  | noEntry (name : String)
  | escaped (label : String)
  | leftOver (count : Nat)
  deriving DecidableEq, Repr

/-- Why a run ends before its end. -/
inductive Halt where
  | trap (t : Trap)
  /-- No further iteration may start. -/
  | canceled
  | fault (f : Fault)
  /-- A function of the host cannot go on. -/
  | aborted (message : String)
  deriving DecidableEq, Repr

/-- The reason of a trap. -/
def Trap.reason : Trap → String
  | unreachable => "unreachable"
  | outOfBounds address => s!"out of bounds memory access at {address.toNat}"

/-- A fault in words. -/
def Fault.message : Fault → String
  | underflow => "ir: operand stack underflow"
  | underflowCalling name => s!"ir: operand stack underflow calling {name}"
  | unknownFunction name => s!"ir: call to unknown function {Text.quote name}"
  | hostFailed name message => s!"ir: {name}: {message}"
  | resultCount name got want => s!"ir: {name} returned {got} values, want {want}"
  | unsupportedOperation ty op => s!"ir: unsupported operation {ty.text}.{op.text}"
  | unsupportedComparisonType ty => s!"ir: unsupported comparison type {ty.text}"
  | unsupportedComparison code => s!"ir: unsupported comparison {code}"
  | unsupportedConversion code => s!"ir: unsupported conversion {code}"
  | unsupportedLoad ty => s!"ir: unsupported load type {ty.text}"
  | unsupportedStore ty => s!"ir: unsupported store type {ty.text}"
  | unsupportedInstr kind => s!"ir: unsupported fragment {kind}"
  | noEntry name => s!"ir: entrypoint {Text.quote name} not found"
  | escaped label => s!"ir: branch to {Text.quote label} escaped the function"
  | leftOver count => s!"ir: {count} values left on the operand stack"

/-- The end of a run in words. -/
def Halt.message : Halt → String
  | trap t => s!"ir: trap: {t.reason}"
  | canceled => "context canceled"
  | fault f => f.message
  | aborted message => message

/-- A state of the machine. -/
structure State (H : Type) where
  memory : Memory
  globals : Slots
  locals : Slots
  stack : List UInt64
  host : H
  /-- How many more iterations of loops may start. -/
  fuel : Nat

/-- What a step leads to. -/
inductive Outcome (H : Type) where
  | next (s : State H)
  | branch (label : String) (s : State H)
  | halt (why : Halt) (s : State H)

/-- What a function of the host leaves behind. -/
structure Reply (H : Type) where
  memory : Memory
  host : H
  answer : Except HostError (List UInt64)

/-- A function of the host: from the memory, the arguments and the state of the host. -/
abbrev HostFn (H : Type) := Memory → List UInt64 → H → Reply H

/-- An import with the function that serves it. -/
structure Linked (H : Type) where
  decl : Import
  serve : HostFn H

/-- Cut a value to the width of its type. -/
def narrow (ty : ValType) (value : UInt64) : UInt64 :=
  if ty = .i32 then value.toUInt32.toUInt64 else value

namespace State

variable {H : Type}

/-- Put a value on the stack. -/
def push (s : State H) (value : UInt64) : State H := { s with stack := value :: s.stack }

end State

end ArrayLang.Machine
