import ArrayLang.Code.Validity
import ArrayLang.Machine.Exec

/-!
# Running modules

A machine is made from a valid module whose imports are served by the host.  Its memory, its global
slots and the state of the host stay from one run to the next.
-/

namespace ArrayLang

open Machine in
/-- A module that is ready to run. -/
structure Machine (H : Type) where
  module : Code.Module
  linked : List (Linked H)
  memory : Memory
  globals : Slots
  /-- The local slots at the end of the last run. -/
  locals : Slots
  host : H

namespace Machine

open Code

variable {H : Type}

/-- Why a module cannot be made ready. -/
inductive LoadError where
  | invalid (e : ModuleError)
  | unbound (space name : String)
  deriving DecidableEq, Repr

/-- An error in words. -/
def LoadError.message : LoadError → String
  | invalid e => e.message
  | unbound space name => s!"ir: no host function for import {space}.{name}"

/-- Find the function of the host for every import. -/
def link (functions : String → Option (HostFn H)) :
    List Import → Except LoadError (List (Linked H))
  | [] => .ok []
  | decl :: rest =>
    match functions decl.name with
    | none => .error (.unbound decl.space decl.name)
    | some serve =>
      match link functions rest with
      | .ok linked => .ok (⟨decl, serve⟩ :: linked)
      | .error e => .error e

/-- What memory holds at the start. -/
def initialMemory (m : Module) : Memory :=
  m.data.foldl (fun memory s => memory.write s.offset.toInt.toNat s.bytes)
    (Memory.zeros m.memory.size)

/-- What the global slots hold at the start. -/
def initialGlobals (m : Module) : Slots :=
  m.globals.map fun g => (g.name, narrow g.ty g.init.toUInt64)

/-- Make a module ready to run. -/
def load (module : Option Module) (functions : String → Option (HostFn H)) (host : H) :
    Except LoadError (Machine H) :=
  match module with
  | none => .error (.invalid .missing)
  | some m =>
    match m.validate with
    | .error e => .error (.invalid e)
    | .ok () =>
      match link functions m.imports with
      | .error e => .error e
      | .ok linked => .ok ⟨m, linked, initialMemory m, initialGlobals m, [], host⟩

/-- The state in which a run of a function starts. -/
def start (m : Machine H) (f : Func) (fuel : Nat) : State H where
  memory := m.memory
  globals := m.globals
  locals := f.locals.map fun l => (l.name, 0)
  stack := []
  host := m.host
  fuel := fuel

/-- The machine after a run that ended in a state. -/
def stopped (m : Machine H) (s : State H) : Machine H :=
  { m with memory := s.memory, globals := s.globals, locals := s.locals, host := s.host }

/-- Run the entry function.  A run that does not halt leaves an empty stack. -/
def run (m : Machine H) (fuel : Nat) : Except Halt Unit × Machine H :=
  match m.module.func? m.module.entry with
  | none => (.error (.fault (.noEntry m.module.entry)), m)
  | some f =>
    match execBlock m.linked f.body (m.start f fuel) with
    | .halt why s => (.error why, m.stopped s)
    | .branch label s => (.error (.fault (.escaped label)), m.stopped s)
    | .next s =>
      let count := s.stack.length
      if count = 0 then (.ok (), m.stopped s)
      else (.error (.fault (.leftOver count)), m.stopped s)

/-- The local slots of the entry function with their values. -/
def entryLocals (m : Machine H) : Slots :=
  match m.module.func? m.module.entry with
  | none => []
  | some f => f.locals.map fun l => (l.name, m.locals.get l.name)

/-- Choose another entry function. -/
def setEntry (m : Machine H) (entry : String) : Machine H :=
  { m with module := { m.module with entry } }

/-- Change bytes of memory; bytes that lie outside are left out.  The result is how many bytes were
changed. -/
def poke (m : Machine H) (address : Nat) (bytes : List UInt8) : Nat × Machine H :=
  let bytes := bytes.take (m.memory.size - address)
  (bytes.length, { m with memory := m.memory.write address bytes })

end Machine

end ArrayLang
