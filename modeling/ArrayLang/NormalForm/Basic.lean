import ArrayLang.Source.Program

/-!
# Normal form

In normal form every operand of an array operation is a literal or a variable.  Other operands are
moved into temporaries that are assigned just before.  The order of evaluation stays: when a later
operand has to be moved, earlier operands that are neither literals nor variables are moved first.
An operand of `and` or `or` that has to be moved goes into a conditional, so that it is still
evaluated only when it is needed.
-/

namespace ArrayLang.NormalForm

open Source

/-- Why a program has no normal form. -/
inductive Error where
  | noModule
  | badStatement (kind : String)
  | missingExpression
  | untyped (kind : String)
  deriving DecidableEq, Repr

/-- An error in words. -/
def Error.message : Error → String
  | noModule => "normalize: module must be non-nil"
  | badStatement kind => s!"normalize: unsupported statement {kind}"
  | missingExpression => "normalize: missing expression"
  | untyped kind => s!"normalize: {kind} has no type"

/-- The temporaries made so far. -/
structure Temps where
  /-- The number to try for the next temporary. -/
  next : Nat := 0
  /-- The temporaries in the order in which they were made. -/
  made : List Binding := []
  deriving Repr

/-- A step that may make temporaries. -/
abbrev Hoist := StateT Temps (Except Error)

/-- The name of a temporary. -/
def tempName (n : Nat) : String := s!"@tmp{n}"

/-- The first number from `n` on whose name is not a variable of the program.  Of any
`env.length + 1` names one is free. -/
def freeNumber (env : Env) (n : Nat) : (tries : Nat) → Nat
  | 0 => n
  | tries + 1 => if (env.find? (tempName n)).isSome then freeNumber env (n + 1) tries else n

/-- Make a temporary of the given type. -/
def fresh (env : Env) (ty : Ty) : Hoist Binding := fun t =>
  let n := freeNumber env t.next (env.length + 1)
  let temp : Binding := ⟨tempName n, ty⟩
  .ok (temp, { next := n + 1, made := t.made ++ [temp] })

/-- The variable of a temporary. -/
def use (temp : Binding) : Expr := .var temp.ty temp.name

/-- Move an operand into a temporary unless it is a literal or a variable.  The results are the
assignment, if there is one, and the new operand. -/
def hoist (env : Env) (x : Expr) : Hoist (List Stmt × Expr) := do
  if x.isAtomic then return ([], x)
  else
    let temp ← fresh env x.ty
    return ([.assign temp.name x], use temp)

/-- Move operands into temporaries in order. -/
def hoistAll (env : Env) : List Expr → Hoist (List Stmt × List Expr)
  | [] => return ([], [])
  | x :: rest => do
    let (move, x) ← hoist env x
    let (moves, rest) ← hoistAll env rest
    return (move ++ moves, x :: rest)

/-- Put two normalised operands in sequence, each with the statements that it needs first.  When the
right one needs any, the left one is moved in front of them. -/
def sequence (env : Env) (leftFirst : List Stmt) (left : Expr) (rightFirst : List Stmt)
    (right : Expr) : Hoist (List Stmt × Expr × Expr) := do
  if rightFirst.isEmpty then return (leftFirst, left, right)
  else
    let (move, left) ← hoist env left
    return (leftFirst ++ move ++ rightFirst, left, right)

/-- Put two normalised operands in sequence and make both of them atomic. -/
def atoms (env : Env) (leftFirst : List Stmt) (left : Expr) (rightFirst : List Stmt)
    (right : Expr) : Hoist (List Stmt × Expr × Expr) := do
  let (first, left, right) ← sequence env leftFirst left rightFirst right
  let (leftMove, left) ← hoist env left
  let (rightMove, right) ← hoist env right
  return (first ++ leftMove ++ rightMove, left, right)

/-- Join the normalised operands of `and` or `or`.  A right operand that needs statements first is
evaluated inside a conditional on the left one. -/
def shortCircuit (env : Env) (ty : Ty) (op : BinaryOp) (leftFirst : List Stmt) (left : Expr)
    (rightFirst : List Stmt) (right : Expr) : Hoist (List Stmt × Expr) := do
  if rightFirst.isEmpty then return (leftFirst, .binary ty op left right)
  else
    let temp ← fresh env .bool
    let rest := rightFirst ++ [.assign temp.name right]
    let branch : Stmt :=
      if op = .or then .ifElse (use temp) [] rest else .ifElse (use temp) rest []
    return (leftFirst ++ [.assign temp.name left, branch], use temp)

/-- An expression was checked. -/
def typed (e : Expr) : Hoist Unit := do
  if !e.ty.isValid then throw (.untyped e.kindText)

mutual

/-- Normalise an expression.  The results are statements to run first and the new expression. -/
def normExpr (env : Env) (e : Expr) : Hoist (List Stmt × Expr) :=
  match e with
  | .missing => throw .missingExpression
  | .int .. | .bool .. | .var .. => do
    typed e
    return ([], e)
  | .unary ty op x => do
    typed e
    let (first, x) ← normExpr env x
    return (first, .unary ty op x)
  | .binary ty op left right => do
    typed e
    let (leftFirst, left) ← normExpr env left
    let (rightFirst, right) ← normExpr env right
    if op = .and ∨ op = .or then shortCircuit env ty op leftFirst left rightFirst right
    else
      let (first, left, right) ← sequence env leftFirst left rightFirst right
      return (first, .binary ty op left right)
  | .call ty name args => do
    typed e
    let (first, args) ← normList env [] [] args
    return (first, .call ty name args)
  | .arrayLit ty elemTy elems => do
    typed e
    let (first, elems) ← normList env [] [] elems
    let (moves, elems) ← hoistAll env elems
    return (first ++ moves, .arrayLit ty elemTy elems)
  | .arrayFill ty length fill => do
    typed e
    let (lengthFirst, length) ← normExpr env length
    let (fillFirst, fill) ← normExpr env fill
    let (first, length, fill) ← atoms env lengthFirst length fillFirst fill
    return (first, .arrayFill ty length fill)
  | .index ty array index => do
    typed e
    let (arrayFirst, array) ← normExpr env array
    let (indexFirst, index) ← normExpr env index
    let (first, array, index) ← atoms env arrayFirst array indexFirst index
    return (first, .index ty array index)

/-- Normalise operands that are evaluated left to right.  `first` and `done` are the statements and
the operands so far; when an operand needs statements first, the operands before it are moved in
front of them. -/
def normList (env : Env) (first : List Stmt) (done : List Expr) :
    List Expr → Hoist (List Stmt × List Expr)
  | [] => return (first, done)
  | e :: rest => do
    let (own, x) ← normExpr env e
    if own.isEmpty then normList env first (done ++ [x]) rest
    else
      let (moves, done) ← hoistAll env done
      normList env (first ++ moves ++ own) (done ++ [x]) rest

end

mutual

/-- Normalise a statement. -/
def normStmt (env : Env) (s : Stmt) : Hoist (List Stmt) :=
  match s with
  | .missing => throw (.badStatement s.kindText)
  | .expr x => do
    let (first, x) ← normExpr env x
    return first ++ [.expr x]
  | .assign name value => do
    let (first, value) ← normExpr env value
    return first ++ [.assign name value]
  | .indexAssign array index value => do
    let (arrayFirst, array) ← normExpr env array
    let (indexFirst, index) ← normExpr env index
    let (first, array, index) ← atoms env arrayFirst array indexFirst index
    let (valueFirst, value) ← normExpr env value
    return first ++ valueFirst ++ [.indexAssign array index value]
  | .ifElse cond thenBody elseBody => do
    let (first, cond) ← normExpr env cond
    let thenBody ← normStmts env thenBody
    let elseBody ← normStmts env elseBody
    return first ++ [.ifElse cond thenBody elseBody]
  | .whileDo cond body => do
    let (first, cond) ← normExpr env cond
    let body ← normStmts env body
    if first.isEmpty then return [.whileDo cond body]
    else
      let temp ← fresh env .bool
      let test := first ++ [.assign temp.name cond]
      return test ++ [.whileDo (use temp) (body ++ test)]

/-- Normalise statements in order. -/
def normStmts (env : Env) : List Stmt → Hoist (List Stmt)
  | [] => return []
  | s :: rest => do
    let s ← normStmt env s
    return s ++ (← normStmts env rest)

end

/-- The normal form of a checked program with the given variables, and the temporaries that it
uses. -/
def normalize (env : Env) (program : Option (List Stmt)) :
    Except Error (List Stmt × List Binding) :=
  match program with
  | none => .error .noModule
  | some stmts =>
    match (normStmts env stmts).run {} with
    | .ok (stmts, temps) => .ok (stmts, temps.made)
    | .error e => .error e

end ArrayLang.NormalForm
