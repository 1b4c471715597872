import ArrayLang.Machine.Exec

/-!
# Observed execution

What code leads to, together with the accesses to memory that it makes on the way.  An access counts
when it is asked for, whether or not it is in bounds.  The laws say for each instruction what is
observed of code that starts with it.
-/

namespace ArrayLang.Machine

open Code

variable {H : Type}

/-- An access to memory. -/
inductive Access where
  | load (ty : ValType) (address : UInt32)
  | store (ty : ValType) (address : UInt32)
  deriving DecidableEq, Repr

namespace Access

/-- The type of the value that is read or written. -/
def ty : Access → ValType
  | load ty _ | store ty _ => ty

/-- The address of the first byte that is read or written. -/
def address : Access → UInt32
  | load _ address | store _ address => address

end Access

/-- The accesses of a loop; `log` gives those of one iteration. -/
def iterateAccesses (label : String) (body : State H → Outcome H)
    (log : State H → List Access) : (bound : Nat) → State H → List Access
  | 0, _ => []
  | bound + 1, s =>
    if s.fuel = 0 then []
    else
      log { s with fuel := s.fuel - 1 } ++
        match body { s with fuel := s.fuel - 1 } with
        | .branch target s =>
          if target = label then iterateAccesses label body log bound s else []
        | _ => []

mutual

/-- The accesses that an instruction makes. -/
def accesses (env : List (Linked H)) (instr : Instr) (s : State H) : List Access :=
  match instr with
  | .load ty =>
    match s.stack with
    | address :: _ => [.load ty address.toUInt32]
    | _ => []
  | .store ty =>
    match s.stack with
    | _ :: address :: _ => [.store ty address.toUInt32]
    | _ => []
  | .ifElse _ thenCode elseCode =>
    match s.stack with
    | value :: stack =>
      if value.toUInt32 ≠ 0 then blockAccesses env thenCode { s with stack }
      else blockAccesses env elseCode { s with stack }
    | _ => []
  | .block _ body => blockAccesses env body s
  | .loop label body =>
    iterateAccesses label (execBlock env body) (blockAccesses env body) s.fuel s
  | _ => []

/-- The accesses that code makes, from first to last. -/
def blockAccesses (env : List (Linked H)) (code : Block) (s : State H) : List Access :=
  match code with
  | [] => []
  | instr :: rest =>
    accesses env instr s ++
      match exec env instr s with
      | .next s => blockAccesses env rest s
      | _ => []

end

/-- What execution leads to and the accesses that it makes. -/
abbrev Observed (H : Type) := Outcome H × List Access

namespace Observed

/-- Make an access first. -/
def after (a : Access) (o : Observed H) : Observed H := (o.1, a :: o.2)

/-- Go on from the state that was reached, if one was reached. -/
def andThen (o : Observed H) (go : State H → Observed H) : Observed H :=
  match o.1 with
  | .next s => ((go s).1, o.2 ++ (go s).2)
  | _ => o

@[simp] theorem andThen_next (s : State H) (log : List Access) (go : State H → Observed H) :
    andThen (.next s, log) go = ((go s).1, log ++ (go s).2) := rfl

@[simp] theorem andThen_halt (why : Halt) (s : State H) (log : List Access)
    (go : State H → Observed H) :
    andThen (.halt why s, log) go = (.halt why s, log) := rfl

@[simp] theorem andThen_branch (label : String) (s : State H) (log : List Access)
    (go : State H → Observed H) :
    andThen (.branch label s, log) go = (.branch label s, log) := rfl

theorem andThen_assoc (o : Observed H) (go next : State H → Observed H) :
    (o.andThen go).andThen next = o.andThen fun s => (go s).andThen next := by
  obtain ⟨outcome, log⟩ := o
  cases outcome with
  | next s =>
      rw [andThen_next, andThen_next]
      rcases hgo : go s with ⟨outcome, rest⟩
      cases outcome <;> simp
  | branch | halt => rfl

end Observed

/-- Observe the execution of code. -/
def observe (env : List (Linked H)) (code : Block) (s : State H) : Observed H :=
  (execBlock env code s, blockAccesses env code s)

/-- Observe the execution of an instruction. -/
def observeInstr (env : List (Linked H)) (instr : Instr) (s : State H) : Observed H :=
  (exec env instr s, accesses env instr s)

variable (env : List (Linked H))

@[simp] theorem observe_nil (s : State H) : observe env [] s = (.next s, []) := rfl

theorem observe_cons (instr : Instr) (rest : Block) (s : State H) :
    observe env (instr :: rest) s = (observeInstr env instr s).andThen (observe env rest) := by
  simp only [observe, observeInstr, execBlock, blockAccesses, Observed.andThen]
  cases exec env instr s <;> simp

theorem observe_append (first second : Block) (s : State H) :
    observe env (first ++ second) s = (observe env first s).andThen (observe env second) := by
  induction first generalizing s with
  | nil => simp
  | cons instr rest ih =>
      rw [List.cons_append, observe_cons, observe_cons, Observed.andThen_assoc]
      congr 1
      funext s
      exact ih s

@[simp] theorem andThen_observe_nil (o : Observed H) : o.andThen (observe env []) = o := by
  obtain ⟨outcome, log⟩ := o
  cases outcome <;> simp

/-! ## Laws of instructions -/

variable (memory : Memory) (globals locals : Slots) (stack : List UInt64) (host : H) (fuel : Nat)
variable (rest : Block)

@[simp] theorem observe_constI64 (value : Int64) :
    observe env (.constI64 value :: rest) ⟨memory, globals, locals, stack, host, fuel⟩ =
      observe env rest ⟨memory, globals, locals, value.toUInt64 :: stack, host, fuel⟩ := by
  rw [observe_cons]
  rfl

@[simp] theorem observe_constI32 (value : Int32) :
    observe env (.constI32 value :: rest) ⟨memory, globals, locals, stack, host, fuel⟩ =
      observe env rest
        ⟨memory, globals, locals, value.toUInt32.toUInt64 :: stack, host, fuel⟩ := by
  rw [observe_cons]
  rfl

@[simp] theorem observe_localGet (name : String) :
    observe env (.localGet name :: rest) ⟨memory, globals, locals, stack, host, fuel⟩ =
      observe env rest ⟨memory, globals, locals, locals.get name :: stack, host, fuel⟩ := by
  rw [observe_cons]
  rfl

@[simp] theorem observe_localSet (name : String) (value : UInt64) :
    observe env (.localSet name :: rest) ⟨memory, globals, locals, value :: stack, host, fuel⟩ =
      observe env rest ⟨memory, globals, locals.set name value, stack, host, fuel⟩ := by
  rw [observe_cons]
  rfl

@[simp] theorem observe_globalGet (name : String) :
    observe env (.globalGet name :: rest) ⟨memory, globals, locals, stack, host, fuel⟩ =
      observe env rest ⟨memory, globals, locals, globals.get name :: stack, host, fuel⟩ := by
  rw [observe_cons]
  rfl

@[simp] theorem observe_globalSet (name : String) (value : UInt64) :
    observe env (.globalSet name :: rest) ⟨memory, globals, locals, value :: stack, host, fuel⟩ =
      observe env rest ⟨memory, globals.set name value, locals, stack, host, fuel⟩ := by
  rw [observe_cons]
  rfl

theorem observe_arith {ty : ValType} {op : ArithOp} {a b value : UInt64}
    (h : arith ty op a b = some value) :
    observe env (.arith ty op :: rest) ⟨memory, globals, locals, b :: a :: stack, host, fuel⟩ =
      observe env rest ⟨memory, globals, locals, value :: stack, host, fuel⟩ := by
  have hexec : exec env (.arith ty op) ⟨memory, globals, locals, b :: a :: stack, host, fuel⟩ =
      .next ⟨memory, globals, locals, value :: stack, host, fuel⟩ := by
    simp only [exec, withTopTwo, withTop, h, State.push]
  rw [observe_cons, observeInstr, hexec]
  rfl

theorem observe_compare {ty : ValType} {op : CompareOp} {a b : UInt64} {holds : Bool}
    (h : compare ty op a b = .ok holds) :
    observe env (.compare ty op :: rest) ⟨memory, globals, locals, b :: a :: stack, host, fuel⟩ =
      observe env rest
        ⟨memory, globals, locals, (if holds then 1 else 0) :: stack, host, fuel⟩ := by
  have hexec : exec env (.compare ty op) ⟨memory, globals, locals, b :: a :: stack, host, fuel⟩ =
      .next ⟨memory, globals, locals, (if holds then 1 else 0) :: stack, host, fuel⟩ := by
    simp only [exec, withTopTwo, withTop, h, State.push]
  rw [observe_cons, observeInstr, hexec]
  rfl

@[simp] theorem observe_wrap (value : UInt64) :
    observe env (.convert .wrap :: rest) ⟨memory, globals, locals, value :: stack, host, fuel⟩ =
      observe env rest
        ⟨memory, globals, locals, value.toUInt32.toUInt64 :: stack, host, fuel⟩ := by
  rw [observe_cons]
  rfl

@[simp] theorem observe_extendU (value : UInt64) :
    observe env (.convert .extendU :: rest)
        ⟨memory, globals, locals, value :: stack, host, fuel⟩ =
      observe env rest
        ⟨memory, globals, locals, value.toUInt32.toUInt64 :: stack, host, fuel⟩ := by
  rw [observe_cons]
  rfl

@[simp] theorem observe_drop (value : UInt64) :
    observe env (.drop :: rest) ⟨memory, globals, locals, value :: stack, host, fuel⟩ =
      observe env rest ⟨memory, globals, locals, stack, host, fuel⟩ := by
  rw [observe_cons]
  rfl

@[simp] theorem observe_trap (s : State H) :
    observe env (.trap :: rest) s = (.halt (.trap .unreachable) s, []) := by
  rw [observe_cons]
  rfl

@[simp] theorem observe_branch (label : String) (s : State H) :
    observe env (.branch label :: rest) s = (.branch label s, []) := by
  rw [observe_cons]
  rfl

@[simp] theorem observe_branchIf (label : String) (value : UInt64) :
    observe env (.branchIf label :: rest)
        ⟨memory, globals, locals, value :: stack, host, fuel⟩ =
      if value.toUInt32 = 0 then
        observe env rest ⟨memory, globals, locals, stack, host, fuel⟩
      else (.branch label ⟨memory, globals, locals, stack, host, fuel⟩, []) := by
  have hstep : observeInstr env (.branchIf label)
        ⟨memory, globals, locals, value :: stack, host, fuel⟩ =
      (if value.toUInt32 = 0 then .next ⟨memory, globals, locals, stack, host, fuel⟩
        else .branch label ⟨memory, globals, locals, stack, host, fuel⟩, []) := rfl
  rw [observe_cons, hstep]
  split <;> rfl

@[simp] theorem observe_load (ty : ValType) (hty : ty.size ≠ 0) (address : UInt64) :
    observe env (.load ty :: rest) ⟨memory, globals, locals, address :: stack, host, fuel⟩ =
      Observed.after (.load ty address.toUInt32)
        (if inBounds memory ty address.toUInt32 then
          observe env rest
            ⟨memory, globals, locals,
              Memory.wordOfBytes (memory.read address.toUInt32.toNat ty.size) :: stack, host, fuel⟩
        else (.halt (.trap (.outOfBounds address.toUInt32))
          ⟨memory, globals, locals, stack, host, fuel⟩, [])) := by
  have hstep : observeInstr env (.load ty)
        ⟨memory, globals, locals, address :: stack, host, fuel⟩ =
      (loadValue ty address.toUInt32 ⟨memory, globals, locals, stack, host, fuel⟩,
        [.load ty address.toUInt32]) := rfl
  rw [observe_cons, hstep, loadValue, if_neg hty]
  split <;> rfl

@[simp] theorem observe_store (ty : ValType) (hty : ty.size ≠ 0) (address value : UInt64) :
    observe env (.store ty :: rest)
        ⟨memory, globals, locals, value :: address :: stack, host, fuel⟩ =
      Observed.after (.store ty address.toUInt32)
        (if inBounds memory ty address.toUInt32 then
          observe env rest
            ⟨memory.write address.toUInt32.toNat (Memory.bytesOfWord ty.size value), globals,
              locals, stack, host, fuel⟩
        else (.halt (.trap (.outOfBounds address.toUInt32))
          ⟨memory, globals, locals, stack, host, fuel⟩, [])) := by
  have hstep : observeInstr env (.store ty)
        ⟨memory, globals, locals, value :: address :: stack, host, fuel⟩ =
      (storeValue ty address.toUInt32 value ⟨memory, globals, locals, stack, host, fuel⟩,
        [.store ty address.toUInt32]) := rfl
  rw [observe_cons, hstep, storeValue, if_neg hty]
  split <;> rfl

theorem observe_ifElse (result : ValType) (thenCode elseCode : Block) (value : UInt64) :
    observe env (.ifElse result thenCode elseCode :: rest)
        ⟨memory, globals, locals, value :: stack, host, fuel⟩ =
      (observe env (if value.toUInt32 ≠ 0 then thenCode else elseCode)
        ⟨memory, globals, locals, stack, host, fuel⟩).andThen (observe env rest) := by
  have hstep : observeInstr env (.ifElse result thenCode elseCode)
        ⟨memory, globals, locals, value :: stack, host, fuel⟩ =
      (if value.toUInt32 ≠ 0 then
          execBlock env thenCode ⟨memory, globals, locals, stack, host, fuel⟩
        else execBlock env elseCode ⟨memory, globals, locals, stack, host, fuel⟩,
        if value.toUInt32 ≠ 0 then
          blockAccesses env thenCode ⟨memory, globals, locals, stack, host, fuel⟩
        else blockAccesses env elseCode ⟨memory, globals, locals, stack, host, fuel⟩) := rfl
  rw [observe_cons, hstep]
  split <;> rfl

/-! ## Laws of regions -/

namespace Observed

/-- Leave the region with a label. -/
def leave (label : String) (o : Observed H) : Observed H :=
  match o.1 with
  | .branch target s => (if target = label then .next s else .branch target s, o.2)
  | _ => o

@[simp] theorem leave_branch_self (label : String) (s : State H) (log : List Access) :
    leave label (.branch label s, log) = (.next s, log) := by
  simp [leave]

theorem leave_prepend (label : String) (log : List Access) (o : Observed H) :
    leave label (o.1, log ++ o.2) = ((o.leave label).1, log ++ (o.leave label).2) := by
  obtain ⟨outcome, rest⟩ := o
  cases outcome <;> rfl

end Observed

theorem observe_block (label : String) (body : Block) (s : State H) :
    observe env (.block label body :: rest) s =
      ((observe env body s).leave label).andThen (observe env rest) := by
  have hstep : observeInstr env (.block label body) s =
      (match execBlock env body s with
        | .branch target s => if target = label then .next s else .branch target s
        | outcome => outcome, blockAccesses env body s) := rfl
  rw [observe_cons, hstep]
  congr 1
  simp only [Observed.leave, observe]
  cases execBlock env body s <;> rfl

/-- Observe a loop. -/
def observeLoop (label : String) (body : Block) (bound : Nat) (s : State H) : Observed H :=
  (iterate label (execBlock env body) bound s,
    iterateAccesses label (execBlock env body) (blockAccesses env body) bound s)

theorem observe_loop (label : String) (body : Block) (s : State H) :
    observe env (.loop label body :: rest) s =
      (observeLoop env label body s.fuel s).andThen (observe env rest) := by
  rw [observe_cons]
  rfl

theorem observeLoop_zero (label : String) (body : Block) (s : State H) :
    observeLoop env label body 0 s = (.halt .canceled s, []) := by
  rfl

theorem observeLoop_empty (label : String) (body : Block) (bound : Nat) (s : State H)
    (h : s.fuel = 0) : observeLoop env label body bound s = (.halt .canceled s, []) := by
  cases bound <;> simp [observeLoop, iterate, iterateAccesses, h]

/-- One iteration of a loop, and the others if its body branches back to it. -/
theorem observeLoop_succ (label : String) (body : Block) (bound : Nat) (s : State H)
    (h : s.fuel ≠ 0) :
    observeLoop env label body (bound + 1) s =
      match observe env body { s with fuel := s.fuel - 1 } with
      | (.branch target s, log) =>
        if target = label then
          ((observeLoop env label body bound s).1, log ++ (observeLoop env label body bound s).2)
        else (.branch target s, log)
      | o => o := by
  simp only [observeLoop, observe, iterate, iterateAccesses, h, if_false]
  cases execBlock env body { s with fuel := s.fuel - 1 } with
  | branch target s => by_cases ht : target = label <;> simp [ht]
  | next | halt => simp

end ArrayLang.Machine
