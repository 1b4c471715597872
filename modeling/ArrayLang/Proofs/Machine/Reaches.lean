import ArrayLang.Machine.Run
import ArrayLang.Proofs.Machine.Observe

/-!
# States on the way

A run passes through states before it ends.  What is said of them does not depend on how the run
goes on.
-/

namespace ArrayLang.Machine

open Code

variable {H : Type}

/-- The states in which an iteration of a loop starts, from the first such state. -/
inductive Repeats (env : List (Linked H)) (label : String) (body : Block) :
    State H → State H → Prop
  | refl (s : State H) : Repeats env label body s s
  | step {s s' s'' : State H} :
      s.fuel ≠ 0 → execBlock env body { s with fuel := s.fuel - 1 } = .branch label s' →
      Repeats env label body s' s'' → Repeats env label body s s''

/-- Code that is executed from a state passes through another state. -/
inductive Reaches (env : List (Linked H)) : Block → State H → State H → Prop
  | here (code : Block) (s : State H) : Reaches env code s s
  | after {first rest : Block} {s s' s'' : State H} :
      execBlock env first s = .next s' → Reaches env rest s' s'' →
      Reaches env (first ++ rest) s s''
  | inBranch {result : ValType} {thenCode elseCode rest : Block} {value : UInt64}
      {stack : List UInt64} {s s' : State H} :
      s.stack = value :: stack →
      Reaches env (if value.toUInt32 ≠ 0 then thenCode else elseCode) { s with stack } s' →
      Reaches env (.ifElse result thenCode elseCode :: rest) s s'
  | inBlock {label : String} {body rest : Block} {s s' : State H} :
      Reaches env body s s' → Reaches env (.block label body :: rest) s s'
  | inLoop {label : String} {body rest : Block} {s s' s'' : State H} :
      Repeats env label body s s' → s'.fuel ≠ 0 →
      Reaches env body { s' with fuel := s'.fuel - 1 } s'' →
      Reaches env (.loop label body :: rest) s s''

/-- Code that is executed from a state comes to an instruction, in another state. -/
inductive Comes (env : List (Linked H)) : Block → State H → Instr → State H → Prop
  | here {instr : Instr} {rest : Block} {s : State H} : Comes env (instr :: rest) s instr s
  | next {first instr : Instr} {rest : Block} {s s' s'' : State H} :
      exec env first s = .next s' → Comes env rest s' instr s'' →
      Comes env (first :: rest) s instr s''
  | inBranch {result : ValType} {thenCode elseCode rest : Block} {instr : Instr} {value : UInt64}
      {stack : List UInt64} {s s' : State H} :
      s.stack = value :: stack →
      Comes env (if value.toUInt32 ≠ 0 then thenCode else elseCode) { s with stack } instr s' →
      Comes env (.ifElse result thenCode elseCode :: rest) s instr s'
  | inBlock {label : String} {body rest : Block} {instr : Instr} {s s' : State H} :
      Comes env body s instr s' → Comes env (.block label body :: rest) s instr s'
  | inLoop {label : String} {body rest : Block} {instr : Instr} {s s' s'' : State H} :
      Repeats env label body s s' → s'.fuel ≠ 0 →
      Comes env body { s' with fuel := s'.fuel - 1 } instr s'' →
      Comes env (.loop label body :: rest) s instr s''

theorem Reaches.append_right {env : List (Linked H)} {code : Block} {s s' : State H}
    (h : Reaches env code s s') (rest : Block) :
    Reaches env (code ++ rest) s s' := by
  induction h with
  | here => exact .here _ _
  | after hfirst _ ih =>
      rw [List.append_assoc]
      exact .after hfirst ih
  | inBranch hstack hbranch => exact .inBranch hstack hbranch
  | inBlock hbody => exact .inBlock hbody
  | inLoop hrepeats hfuel hbody => exact .inLoop hrepeats hfuel hbody

section

variable {env : List (Linked H)} {s s' : State H}

theorem execBlock_append {first : Block} (h : execBlock env first s = .next s') (second : Block) :
    execBlock env (first ++ second) s = execBlock env second s' := by
  have hobserve := congrArg Prod.fst (observe_append env first second s)
  simpa [observe, h] using hobserve

/-- A conditional branch whose condition does not hold. -/
theorem execBlock_branchIf {label : String} {value : UInt64} {stack : List UInt64}
    (hstack : s.stack = value :: stack) (hvalue : value.toUInt32 = 0) (rest : Block) :
    execBlock env (.branchIf label :: rest) s = execBlock env rest { s with stack } := by
  obtain ⟨memory, globals, locals, st, host, fuel⟩ := s
  subst hstack
  have hobserve := congrArg Prod.fst
    (observe_branchIf env memory globals locals stack host fuel rest label value)
  rw [if_pos hvalue] at hobserve
  exact hobserve

end

/-! ## Runs of modules -/

/-- The accesses to memory of a run of the entry function. -/
def runAccesses (m : Machine H) (fuel : Nat) : List Access :=
  match m.module.func? m.module.entry with
  | none => []
  | some f => blockAccesses m.linked f.body (m.start f fuel)

/-- A run of the entry function passes through a state. -/
def RunReaches (m : Machine H) (fuel : Nat) (s : State H) : Prop :=
  ∃ f, m.module.func? m.module.entry = some f ∧ Reaches m.linked f.body (m.start f fuel) s

/-- A run of the entry function comes to an instruction, in a state. -/
def RunComes (m : Machine H) (fuel : Nat) (instr : Instr) (s : State H) : Prop :=
  ∃ f, m.module.func? m.module.entry = some f ∧ Comes m.linked f.body (m.start f fuel) instr s

end ArrayLang.Machine
