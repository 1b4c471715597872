import ArrayLang.Machine.State

/-!
# Execution

An instruction takes its operands from the stack and puts its result there.  A branch leaves all
code up to the block or the loop with its label.  A loop may start an iteration only while there is
fuel.
-/

namespace ArrayLang.Machine

open Code

variable {H : Type}

/-- Do something with the top of the stack. -/
def withTop (s : State H) (act : UInt64 → State H → Outcome H) : Outcome H :=
  match s with
  | ⟨memory, globals, locals, value :: stack, host, fuel⟩ =>
    act value ⟨memory, globals, locals, stack, host, fuel⟩
  | s => .halt (.fault .underflow) s

/-- Do something with the two topmost values; the lower one comes first. -/
def withTopTwo (s : State H) (act : UInt64 → UInt64 → State H → Outcome H) : Outcome H :=
  withTop s fun second s => withTop s fun first s => act first second s

/-- The result of an operation on values of 64 bits. -/
def arith64 (op : ArithOp) (a b : UInt64) : Option UInt64 :=
  match op with
  | .add => some (a + b)
  | .sub => some (a - b)
  | .mul => some (a * b)
  | .shl => some (a <<< b)
  | .shrU => some (a >>> b)
  | .xor => some (a ^^^ b)
  | .unknown _ => none

/-- The result of an operation on values of 32 bits. -/
def arith32 (op : ArithOp) (a b : UInt32) : Option UInt32 :=
  match op with
  | .add => some (a + b)
  | .sub => some (a - b)
  | .mul => some (a * b)
  | .shl => some (a <<< b)
  | .shrU => some (a >>> b)
  | .xor => some (a ^^^ b)
  | .unknown _ => none

/-- The result of an operation. -/
def arith (ty : ValType) (op : ArithOp) (a b : UInt64) : Option UInt64 :=
  match ty with
  | .i64 => arith64 op a b
  | .i32 => (arith32 op a.toUInt32 b.toUInt32).map UInt32.toUInt64
  | .none | .other _ => none

/-- The result of a comparison of values of 64 bits. -/
def compare64 (op : CompareOp) (a b : UInt64) : Except Fault Bool :=
  match op with
  | .eq => .ok (a == b)
  | .ne => .ok (a != b)
  | .ltS => .ok (a.toInt64 < b.toInt64)
  | .leS => .ok (a.toInt64 ≤ b.toInt64)
  | .gtS => .ok (b.toInt64 < a.toInt64)
  | .geS => .ok (b.toInt64 ≤ a.toInt64)
  | .ltU => .ok (a < b)
  | .unknown code => .error (.unsupportedComparison code)

/-- The result of a comparison of values of 32 bits. -/
def compare32 (op : CompareOp) (a b : UInt32) : Except Fault Bool :=
  match op with
  | .eq => .ok (a == b)
  | .ne => .ok (a != b)
  | .ltS => .ok (a.toInt32 < b.toInt32)
  | .leS => .ok (a.toInt32 ≤ b.toInt32)
  | .gtS => .ok (b.toInt32 < a.toInt32)
  | .geS => .ok (b.toInt32 ≤ a.toInt32)
  | .ltU => .ok (a < b)
  | .unknown code => .error (.unsupportedComparison code)

/-- The result of a comparison. -/
def compare (ty : ValType) (op : CompareOp) (a b : UInt64) : Except Fault Bool :=
  match ty with
  | .i64 => compare64 op a b
  | .i32 => compare32 op a.toUInt32 b.toUInt32
  | .none | .other _ => .error (.unsupportedComparisonType ty)

/-- A value has its place in memory at an address. -/
def inBounds (m : Memory) (ty : ValType) (address : UInt32) : Bool :=
  address.toNat + ty.size ≤ m.size

/-- Read a value from memory. -/
def loadValue (ty : ValType) (address : UInt32) (s : State H) : Outcome H :=
  if inBounds s.memory ty address then
    if ty.size = 0 then .halt (.fault (.unsupportedLoad ty)) s
    else .next (s.push (Memory.wordOfBytes (s.memory.read address.toNat ty.size)))
  else .halt (.trap (.outOfBounds address)) s

/-- Write a value to memory. -/
def storeValue (ty : ValType) (address : UInt32) (value : UInt64) (s : State H) : Outcome H :=
  if inBounds s.memory ty address then
    if ty.size = 0 then .halt (.fault (.unsupportedStore ty)) s
    else
      .next { s with memory := s.memory.write address.toNat (Memory.bytesOfWord ty.size value) }
  else .halt (.trap (.outOfBounds address)) s

/-- Cut values to the widths of their types. -/
def narrowAll (types : List ValType) (values : List UInt64) : List UInt64 :=
  List.zipWith narrow types values

/-- Call a function of the host.  Its last argument is on top of the stack, and so is its last
result. -/
def callHost (env : List (Linked H)) (name : String) (s : State H) : Outcome H :=
  match env.find? fun l => l.decl.name = name with
  | none => .halt (.fault (.unknownFunction name)) s
  | some linked =>
    let count := linked.decl.params.length
    if s.stack.length < count then .halt (.fault (.underflowCalling name)) s
    else
      let args := narrowAll linked.decl.params (s.stack.take count).reverse
      let reply := linked.serve s.memory args s.host
      let s := { s with memory := reply.memory, host := reply.host, stack := s.stack.drop count }
      match reply.answer with
      | .error (.failed message) => .halt (.fault (.hostFailed name message)) s
      | .error (.aborted message) => .halt (.aborted message) s
      | .ok results =>
        let want := linked.decl.results.length
        if results.length ≠ want then
          .halt (.fault (.resultCount name results.length want)) s
        else
          .next { s with stack := (narrowAll linked.decl.results results).reverse ++ s.stack }

/-- Run a loop: start an iteration if there is fuel, and start another one whenever the body
branches to the label of the loop.  Every iteration takes fuel, so `bound` is never used up before
the fuel if it is at least as large. -/
def iterate (label : String) (body : State H → Outcome H) : (bound : Nat) → State H → Outcome H
  | 0, s => .halt .canceled s
  | bound + 1, s =>
    if s.fuel = 0 then .halt .canceled s
    else
      match body { s with fuel := s.fuel - 1 } with
      | .branch target s =>
        if target = label then iterate label body bound s else .branch target s
      | outcome => outcome

mutual

/-- Execute an instruction. -/
def exec (env : List (Linked H)) (instr : Instr) (s : State H) : Outcome H :=
  match instr with
  | .constI64 value => .next (s.push value.toUInt64)
  | .constI32 value => .next (s.push value.toUInt32.toUInt64)
  | .localGet name => .next (s.push (s.locals.get name))
  | .localSet name => withTop s fun value s => .next { s with locals := s.locals.set name value }
  | .localTee name =>
    withTop s fun value s => .next (State.push { s with locals := s.locals.set name value } value)
  | .globalGet name => .next (s.push (s.globals.get name))
  | .globalSet name => withTop s fun value s => .next { s with globals := s.globals.set name value }
  | .arith ty op =>
    withTopTwo s fun a b s =>
      match arith ty op a b with
      | some value => .next (s.push value)
      | none => .halt (.fault (.unsupportedOperation ty op)) s
  | .compare ty op =>
    withTopTwo s fun a b s =>
      match compare ty op a b with
      | .ok holds => .next (s.push (if holds then 1 else 0))
      | .error f => .halt (.fault f) s
  | .convert (.unknown code) => withTop s fun _ s => .halt (.fault (.unsupportedConversion code)) s
  | .convert _ => withTop s fun value s => .next (s.push value.toUInt32.toUInt64)
  | .load ty => withTop s fun address s => loadValue ty address.toUInt32 s
  | .store ty => withTopTwo s fun address value s => storeValue ty address.toUInt32 value s
  | .call name => callHost env name s
  | .ifElse _ thenCode elseCode =>
    withTop s fun value s =>
      if value.toUInt32 ≠ 0 then execBlock env thenCode s else execBlock env elseCode s
  | .block label body =>
    match execBlock env body s with
    | .branch target s => if target = label then .next s else .branch target s
    | outcome => outcome
  | .loop label body => iterate label (execBlock env body) s.fuel s
  | .branch label => .branch label s
  | .branchIf label =>
    withTop s fun value s => if value.toUInt32 = 0 then .next s else .branch label s
  | .drop => withTop s fun _ s => .next s
  | .trap => .halt (.trap .unreachable) s
  | .missing | .stray _ | .nested _ => .halt (.fault (.unsupportedInstr instr.strayText)) s

/-- Execute code from first to last. -/
def execBlock (env : List (Linked H)) (code : Block) (s : State H) : Outcome H :=
  match code with
  | [] => .next s
  | instr :: rest =>
    match exec env instr s with
    | .next s => execBlock env rest s
    | outcome => outcome

end

end ArrayLang.Machine
