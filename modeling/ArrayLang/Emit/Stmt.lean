import ArrayLang.Emit.Expr

/-!
# Code for statements

The code of a statement leaves the operand stack as it was.
-/

namespace ArrayLang.Emit

open Source Code

/-- Code for a loop: leave it if the condition does not hold, and else run the body and start
again. -/
def whileLoop (labels : LoopLabels) (cond body : Block) : Instr :=
  .block labels.exit [.loop labels.start
    (cond ++ [i32Const 0, .compare .i32 .eq, .branchIf labels.exit] ++ body ++
      [.branch labels.start])]

/-- Code for storing a value in an element. -/
def elementWrite (t : Target) (array index value : Expr) : Emission Block := do
  let (address, _) ← elementRef t array index
  let code ← expr t value
  let vt ← representation value.ty .bare
  if vt = .none then throw (.badStore value.ty)
  return address ++ code ++ [.store vt]

mutual

/-- Code for a statement. -/
def stmt (t : Target) (s : Stmt) : Emission Block :=
  match s with
  | .missing => throw .missingStatement
  | .expr x => do
    requireTier t s.kindText s.tier
    let code ← expr t x
    return if x.ty = .void then code else code ++ [.drop]
  | .assign name value => do
    requireTier t s.kindText s.tier
    let code ← expr t value
    return code ++ [.localSet name]
  | .indexAssign array index value => do
    requireTier t s.kindText s.tier
    elementWrite t array index value
  | .ifElse cond thenBody elseBody => do
    requireTier t s.kindText s.tier
    let cond ← expr t cond
    let thenCode ← stmts t thenBody
    let elseCode ← stmts t elseBody
    return cond ++ [.ifElse .none thenCode elseCode]
  | .whileDo cond body => do
    requireTier t s.kindText s.tier
    let labels ← freshLabels "while"
    let cond ← expr t cond
    let body ← stmts t body
    return [whileLoop labels cond body]

/-- Code for statements from first to last. -/
def stmts (t : Target) : List Stmt → Emission Block
  | [] => return []
  | s :: rest => do
    let first ← stmt t s
    return first ++ (← stmts t rest)

end

/-- Run a step of code generation. -/
def Emission.run {α : Type} (step : Emission α) (p : Progress) : Except Error α × Progress :=
  StateT.run (ExceptT.run step) p

end ArrayLang.Emit
