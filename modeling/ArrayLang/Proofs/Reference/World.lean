import ArrayLang.Emit.Basic
import ArrayLang.Host.Console
import ArrayLang.Proofs.Machine.Observe
import Mathlib.Logic.Function.Basic

/-!
# The world of a program

The reference semantics runs a program without code: on variables, a memory of bytes, the frontier
of the heap, a console and some fuel.  Values are words of 64 bits; a truth value and a reference
are the lower half of a word.

A world also keeps a history of what was done.  Nothing that happens depends on it; it is there for
statements about whole runs.
-/

namespace ArrayLang.Reference

open Source Code Machine Emit

/-- An array that was made: the address of its header, its length and the type of its elements. -/
structure Extent where
  address : UInt32
  length : UInt32
  elem : Ty
  deriving DecidableEq, Repr

/-- What an access to memory is made for. -/
inductive Purpose where
  /-- A new array gets its header or an element. -/
  | make
  /-- The length of an array is asked for. -/
  | length
  /-- An element of an array is read. -/
  | read
  /-- An element of an array is written. -/
  | write
  deriving DecidableEq, Repr

/-- Something that happens in a run. -/
inductive Event where
  /-- A variable is read. -/
  | read (name : String)
  /-- A variable is assigned to. -/
  | assign (name : String)
  /-- The left operand of `and` or `or` has a value; `right` is the other operand. -/
  | choice (op : BinaryOp) (right : Expr) (left : UInt64)
  /-- An array is made. -/
  | made (array : Extent)
  /-- Memory is accessed on behalf of the array at a reference. -/
  | access (purpose : Purpose) (array : UInt32) (access : Access)

/-- The access to memory that an event is, if it is one. -/
def Event.access? : Event → Option Access
  | .access _ _ a => some a
  | _ => none

/-- The array that an event makes, if it makes one. -/
def Event.made? : Event → Option Extent
  | .made array => some array
  | _ => none

/-- The state of a run. -/
structure World where
  vars : String → UInt64
  memory : Memory
  /-- The first free address. -/
  frontier : UInt32
  console : Host.Console
  /-- How many more iterations of loops may start. -/
  fuel : Nat
  /-- What happened so far, from first to last. -/
  history : List Event

namespace World

/-- The accesses to memory so far. -/
def accesses (w : World) : List Access := w.history.filterMap Event.access?

/-- The arrays made so far. -/
def arrays (w : World) : List Extent := w.history.filterMap Event.made?

/-- The world after one more event. -/
def note (w : World) (e : Event) : World := { w with history := w.history ++ [e] }

/-- The world after an assignment. -/
def assign (w : World) (name : String) (value : UInt64) : World :=
  { w.note (.assign name) with vars := Function.update w.vars name value }

section

variable (w : World) (e : Event)

@[simp] theorem vars_note : (w.note e).vars = w.vars := rfl

@[simp] theorem memory_note : (w.note e).memory = w.memory := rfl

@[simp] theorem history_note : (w.note e).history = w.history ++ [e] := rfl

@[simp] theorem vars_assign (name : String) (value : UInt64) :
    (w.assign name value).vars = Function.update w.vars name value := rfl

end

end World

/-- A computation in a world that may halt. -/
abbrev Eval := EStateM Halt World

/-- The world in which a computation ended. -/
def endWorld {α : Type} : EStateM.Result Halt World α → World
  | .ok _ w | .error _ w => w

/-- Record an event. -/
def note (e : Event) : Eval Unit := modify fun w => w.note e

/-- The value of a variable. -/
def readVar (name : String) : Eval UInt64 := do
  note (.read name)
  return (← get).vars name

/-- Change the value of a variable. -/
def assignVar (name : String) (value : UInt64) : Eval Unit := do
  note (.assign name)
  modify fun w => { w with vars := Function.update w.vars name value }

/-- Take fuel for one iteration. -/
def tick : Eval Unit := do
  let w ← get
  if w.fuel = 0 then throw .canceled
  else set { w with fuel := w.fuel - 1 }

/-- Read a value from memory. -/
def load (purpose : Purpose) (array : UInt32) (ty : ValType) (address : UInt32) : Eval UInt64 := do
  note (.access purpose array (.load ty address))
  let w ← get
  if inBounds w.memory ty address then
    return Memory.wordOfBytes (w.memory.read address.toNat ty.size)
  else throw (.trap (.outOfBounds address))

/-- Write a value to memory. -/
def store (purpose : Purpose) (array : UInt32) (ty : ValType) (address : UInt32) (value : UInt64) :
    Eval Unit := do
  note (.access purpose array (.store ty address))
  let w ← get
  if inBounds w.memory ty address then
    set { w with memory := w.memory.write address.toNat (Memory.bytesOfWord ty.size value) }
  else throw (.trap (.outOfBounds address))

/-- What the host says of a message that is not in memory. -/
def outsideText (offset length : Nat) : String :=
  s!"runtime: message at {offset}+{length} is outside memory"

/-- Report a message and halt. -/
def report (msg : Message) : Eval Unit := do
  let w ← get
  let offset := msg.offset.toUInt32.toNat
  let length := msg.length.toUInt32.toNat
  if w.memory.size < offset + length then
    throw (.fault (.hostFailed Host.Function.reportError.name (outsideText offset length)))
  else
    set { w with console := w.console.report (w.memory.read offset length) }
    throw (.trap .unreachable)

/-- Report a message and halt unless a condition holds. -/
def require (ok : Bool) (msg : Message) : Eval Unit := if ok then return () else report msg

/-- How a value is printed. -/
def valueText (ty : Ty) (value : UInt64) : String :=
  match ty with
  | .int => toString value.toInt64.toInt
  | .bool => if value.toUInt32 = 0 then "False" else "True"
  | _ => toString value.toUInt32.toInt32.toInt

/-- Print a value. -/
def print (ty : Ty) (value : UInt64) : Eval Unit :=
  modify fun w => { w with console := w.console.print (valueText ty value) }

/-- Read an integer from the console. -/
def input : Eval UInt64 := do
  let w ← get
  let (answer, rest) := w.console.input.readInt
  set { w with console := { w.console with input := rest } }
  match answer with
  | .ok value => return value.toUInt64
  | .error e => throw (.fault (.hostFailed Host.Function.readInt.name e.message))

/-- Run a loop: each evaluation of the condition takes fuel.  Since it does, `bound` is never used up
before the fuel if it is at least as large. -/
def loop (cond : Eval Bool) (body : Eval Unit) : (bound : Nat) → Eval Unit
  | 0 => throw .canceled
  | bound + 1 => do
    tick
    if ← cond then
      body
      loop cond body bound

theorem loop_add_one (cond : Eval Bool) (body : Eval Unit) (bound : Nat) :
    loop cond body (bound + 1) =
      (do tick; if ← cond then (do body; loop cond body bound) else pure ()) := rfl

/-! ## What the steps do -/

section

variable {α β : Type} (w : World)

/-- A computation goes on unless it halted. -/
theorem run_bind (x : Eval α) (f : α → Eval β) :
    (x >>= f) w =
      match x w with
      | .ok a w => f a w
      | .error why w => .error why w := by
  simp only [bind, EStateM.bind]
  cases x w <;> rfl

theorem run_bind_ok {x : Eval α} {f : α → Eval β} {a : α} {w' : World} (h : x w = .ok a w') :
    (x >>= f) w = f a w' := by
  rw [run_bind, h]

theorem run_bind_error {x : Eval α} {f : α → Eval β} {why : Halt} {w' : World}
    (h : x w = .error why w') : (x >>= f) w = .error why w' := by
  rw [run_bind, h]

/-- What ends well has parts that end well. -/
theorem exists_of_run_bind {x : Eval α} {f : α → Eval β} {b : β} {w w' : World}
    (h : (x >>= f) w = .ok b w') : ∃ a w₁, x w = .ok a w₁ ∧ f a w₁ = .ok b w' := by
  rw [run_bind] at h
  cases hx : x w with
  | error why w₁ =>
      rw [hx] at h
      exact nomatch h
  | ok a w₁ =>
      rw [hx] at h
      exact ⟨a, w₁, rfl, h⟩

@[simp] theorem run_pure (a : α) : (pure a : Eval α) w = .ok a w := rfl

@[simp] theorem run_throw (why : Halt) : (throw why : Eval α) w = .error why w := rfl

@[simp] theorem run_get : (get : Eval World) w = .ok w w := rfl

@[simp] theorem run_set (w' : World) : (set w' : Eval Unit) w = .ok () w' := rfl

@[simp] theorem run_modify (f : World → World) : (modify f : Eval Unit) w = .ok () (f w) := rfl

@[simp] theorem run_note (e : Event) : note e w = .ok () (w.note e) := rfl

@[simp] theorem run_readVar (name : String) :
    readVar name w = .ok (w.vars name) (w.note (.read name)) := rfl

@[simp] theorem run_assignVar (name : String) (value : UInt64) :
    assignVar name value w = .ok () (w.assign name value) := rfl

theorem run_tick :
    tick w = if w.fuel = 0 then .error .canceled w else .ok () { w with fuel := w.fuel - 1 } := by
  simp only [tick, run_bind, run_get]
  by_cases h : w.fuel = 0 <;> simp [h]

theorem run_load (purpose : Purpose) (array : UInt32) (ty : ValType) (address : UInt32) :
    load purpose array ty address w =
      if inBounds w.memory ty address then
        .ok (Memory.wordOfBytes (w.memory.read address.toNat ty.size))
          (w.note (.access purpose array (.load ty address)))
      else .error (.trap (.outOfBounds address))
        (w.note (.access purpose array (.load ty address))) := by
  simp only [load, run_bind, run_note, run_get, World.memory_note]
  by_cases h : inBounds w.memory ty address = true <;> simp [h]

theorem run_store (purpose : Purpose) (array : UInt32) (ty : ValType) (address : UInt32)
    (value : UInt64) :
    store purpose array ty address value w =
      if inBounds w.memory ty address then
        .ok () { w.note (.access purpose array (.store ty address)) with
          memory := w.memory.write address.toNat (Memory.bytesOfWord ty.size value) }
      else .error (.trap (.outOfBounds address))
        (w.note (.access purpose array (.store ty address))) := by
  simp only [store, run_bind, run_note, run_get, World.memory_note]
  by_cases h : inBounds w.memory ty address = true <;> simp [h]

theorem run_report (msg : Message) :
    report msg w =
      let offset := msg.offset.toUInt32.toNat
      let length := msg.length.toUInt32.toNat
      if w.memory.size < offset + length then
        .error (.fault (.hostFailed Host.Function.reportError.name (outsideText offset length))) w
      else
        let console := w.console.report (w.memory.read offset length)
        .error (.trap .unreachable) { w with console } := by
  simp only [report, run_bind, run_get]
  by_cases h :
      w.memory.size < msg.offset.toUInt32.toNat + msg.length.toUInt32.toNat <;>
    simp [h, run_bind]

@[simp] theorem run_require_true (msg : Message) : require true msg w = .ok () w := rfl

@[simp] theorem run_require_false (msg : Message) : require false msg w = report msg w := rfl

/-- A report halts, so what would come next does not matter. -/
theorem report_bind (msg : Message) (f : Unit → Eval Unit) :
    (report msg >>= f) = report msg := by
  funext w
  rw [run_bind, run_report]
  by_cases h :
      w.memory.size < msg.offset.toUInt32.toNat + msg.length.toUInt32.toNat <;> simp [h]

/-- A check that ends well was passed. -/
theorem of_run_require {ok : Bool} {msg : Message} {w w' : World}
    (h : require ok msg w = .ok () w') : ok = true ∧ w' = w := by
  cases ok with
  | true => exact ⟨rfl, (EStateM.Result.ok.inj h).2.symm⟩
  | false =>
      rw [run_require_false, run_report] at h
      dsimp only at h
      split at h <;> exact nomatch h

/-- Two conditions may be checked one by one. -/
theorem require_and (a b : Bool) (msg : Message) :
    require (a && b) msg = (do require a msg; require b msg) := by
  cases a with
  | true => rfl
  | false => exact (report_bind msg _).symm

@[simp] theorem run_print (ty : Ty) (value : UInt64) :
    print ty value w = .ok () { w with console := w.console.print (valueText ty value) } := rfl

theorem run_input_ok {value : Int64} {rest : Host.Input}
    (h : w.console.input.readInt = (.ok value, rest)) :
    input w = .ok value.toUInt64 { w with console := { w.console with input := rest } } := by
  simp only [input, run_bind, run_get, h, run_set, run_pure]

theorem run_input_error {e : Host.InputError} {rest : Host.Input}
    (h : w.console.input.readInt = (.error e, rest)) :
    input w = .error (.fault (.hostFailed Host.Function.readInt.name e.message))
      { w with console := { w.console with input := rest } } := by
  simp only [input, run_bind, run_get, h, run_set, run_throw]

end

end ArrayLang.Reference
