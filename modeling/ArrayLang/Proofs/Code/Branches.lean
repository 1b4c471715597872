import ArrayLang.Proofs.Code.Regions

/-!
# Labels and branches

The labels that code declares, the slots that it mentions, and code whose branches serve loops: a
loop stands directly in a block, a conditional branch in the loop leaves the block, and an
unconditional one starts the loop again.
-/

namespace ArrayLang.Code

/-- What code can stand in. -/
inductive Region where
  /-- A branch of a conditional. -/
  | arm
  | block (label : String)
  | loop (label : String)
  deriving DecidableEq, Repr

/-- Where a conditional branch leads; the regions are given from the innermost on. -/
def exitLabel? : List Region → Option String
  | .loop _ :: .block exit :: _ => some exit
  | _ => none

/-- Where an unconditional branch leads. -/
def startLabel? : List Region → Option String
  | .loop start :: .block _ :: _ => some start
  | _ => none

mutual

/-- The labels of the blocks and loops of an instruction. -/
def Instr.labels : Instr → List String
  | .ifElse _ thenCode elseCode => labels thenCode ++ labels elseCode
  | .block label body | .loop label body => label :: labels body
  | _ => []

/-- The labels that code declares. -/
def labels : Block → List String
  | [] => []
  | instr :: rest => instr.labels ++ labels rest

end

mutual

/-- All branches of an instruction serve the loops that they stand in; `around` are the regions
around the instruction. -/
def Instr.WellBranched (around : List Region) : Instr → Prop
  | .branchIf label => exitLabel? around = some label
  | .branch label => startLabel? around = some label
  | .ifElse _ thenCode elseCode =>
    WellBranched (.arm :: around) thenCode ∧ WellBranched (.arm :: around) elseCode
  | .block label body => WellBranched (.block label :: around) body
  | .loop label body => WellBranched (.loop label :: around) body
  | _ => True

/-- All branches of code serve the loops that they stand in. -/
def WellBranched (around : List Region) : Block → Prop
  | [] => True
  | instr :: rest => instr.WellBranched around ∧ WellBranched around rest

end

/-- The local or global slot that an instruction works on. -/
def Instr.slot? : Instr → Option String
  | .localGet name | .localSet name | .localTee name => some name
  | .globalGet name | .globalSet name => some name
  | _ => none

/-- The slots that code mentions. -/
def slots (code : Block) : List String := (leaves code).filterMap Instr.slot?

section

variable (first second : Block)

@[simp] theorem labels_append : labels (first ++ second) = labels first ++ labels second := by
  induction first with
  | nil => rfl
  | cons instr rest ih => rw [List.cons_append, labels, labels, ih, List.append_assoc]

@[simp] theorem wellBranched_append (around : List Region) :
    WellBranched around (first ++ second) ↔
      WellBranched around first ∧ WellBranched around second := by
  induction first with
  | nil => simp [WellBranched]
  | cons instr rest ih => rw [List.cons_append, WellBranched, WellBranched, ih, and_assoc]

@[simp] theorem slots_append : slots (first ++ second) = slots first ++ slots second := by
  rw [slots, leaves_append, List.filterMap_append, slots, slots]

end

/-- An instruction that neither holds code nor branches. -/
def Instr.isPlain (instr : Instr) : Bool :=
  match instr with
  | .branch _ | .branchIf _ => false
  | _ => !instr.holdsCode

section

variable {code : Block}

theorem labels_of_isPlain (h : code.all Instr.isPlain = true) : labels code = [] := by
  induction code with
  | nil => rfl
  | cons instr rest ih =>
      obtain ⟨hinstr, hrest⟩ := Bool.and_eq_true_iff.mp h
      rw [labels, ih hrest, List.append_nil]
      cases instr with
      | ifElse | block | loop => cases hinstr
      | _ => rfl

theorem wellBranched_of_isPlain (around : List Region) (h : code.all Instr.isPlain = true) :
    WellBranched around code := by
  induction code with
  | nil => trivial
  | cons instr rest ih =>
      obtain ⟨hinstr, hrest⟩ := Bool.and_eq_true_iff.mp h
      refine ⟨?_, ih hrest⟩
      cases instr with
      | ifElse | block | loop | branch | branchIf => cases hinstr
      | _ => trivial

end

end ArrayLang.Code
