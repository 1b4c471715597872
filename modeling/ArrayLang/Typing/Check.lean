import ArrayLang.Typing.Error

/-!
# The checker

A variable has the type of its first assignment in program order; later assignments must agree, and
uses must follow an assignment.  The checker puts the type of every expression on its node and
returns the types of the variables.
-/

namespace ArrayLang.Typing

open Source

/-- The result of checking a part of a program. -/
abbrev Check := Except Objection

/-- A node of the given tier is in the language of tier `tier`. -/
def allowed (tier : Tier) (what : String) (node : Tier) : Check Unit :=
  if tier.admits node then .ok () else .error (.unavailable what tier)

/-- A checked expression has a value. -/
def hasValue (e : Expr) : Check Expr :=
  if e.ty = .void then .error (.noValue e.kindText) else .ok e

/-- A checked expression has a value of the wanted type. -/
def hasType (what : String) (want : Ty) (e : Expr) : Check Expr := do
  let e ← hasValue e
  if e.ty = want then .ok e else .error (.badOperand what want e.ty)

/-- The element type of a checked array. -/
def elemTy (array : Expr) : Check Ty :=
  match array.ty with
  | .array elem => .ok elem
  | ty => .error (.badIndexed ty)

/-- The type of the result of a binary operator on checked operands. -/
def binaryTy (op : BinaryOp) (left right : Expr) : Check Ty :=
  match op with
  | .is =>
    if left.ty.isArray && right.ty.isArray then .ok .bool
    else .error (.identityOfScalars left.ty right.ty)
  | .eq | .ne =>
    if left.ty.isArray || right.ty.isArray then .error (.equalityOfArrays op)
    else if left.ty = right.ty then .ok .bool
    else .error (.operandsDiffer op left.ty right.ty)
  | .lt | .le | .gt | .ge | .and | .or => .ok .bool
  | .add | .sub | .mul => .ok .int
  | .unknown _ => .error (.unknownBinary op)

/-- The operand type that a binary operator fixes. -/
def operandTy? : BinaryOp → Option Ty
  | .add | .sub | .mul | .lt | .le | .gt | .ge => some .int
  | .and | .or => some .bool
  | .eq | .ne | .is | .unknown _ => none

/-- A checked operand of a binary operator. -/
def operand (op : BinaryOp) (e : Expr) : Check Expr :=
  match operandTy? op with
  | some want => hasType op.text want e
  | none => hasValue e

mutual

/-- Check an expression and put types on its nodes. -/
def checkExpr (tier : Tier) (env : Env) (e : Expr) : Check Expr :=
  match e with
  | .missing => .error .missingExpression
  | .int _ value => do
    allowed tier e.kindText .loop
    return .int .int value
  | .bool _ value => do
    allowed tier e.kindText .loop
    return .bool .bool value
  | .var _ name => do
    allowed tier e.kindText .loop
    match env.find? name with
    | some ty => return .var ty name
    | none => .error (.unassigned name)
  | .unary _ op x => do
    allowed tier e.kindText .loop
    match op with
    | .neg => return .unary .int op (← hasType "neg" .int (← checkExpr tier env x))
    | .not => return .unary .bool op (← hasType "not" .bool (← checkExpr tier env x))
    | .unknown _ => .error (.unknownUnary op)
  | .binary _ op left right => do
    allowed tier e.kindText .loop
    match op with
    | .unknown _ => .error (.unknownBinary op)
    | _ =>
      let left ← operand op (← checkExpr tier env left)
      let right ← operand op (← checkExpr tier env right)
      return .binary (← binaryTy op left right) op left right
  | .call _ name args => do
    allowed tier e.kindText .loop
    match Builtin.ofText? name with
    | none => .error (.unknownFunction name)
    | some .print =>
      match args with
      | [x] => return .call .void name [← hasValue (← checkExpr tier env x)]
      | _ => .error (.printArity args.length)
    | some .inputInt =>
      match args with
      | [] => return .call .int name []
      | _ => .error (.inputArity args.length)
    | some .len =>
      allowed tier "len" .array
      match args with
      | [x] =>
        let x ← hasValue (← checkExpr tier env x)
        if x.ty.isArray then return .call .int name [x] else .error (.lenOfScalar x.ty)
      | _ => .error (.lenArity args.length)
  | .arrayLit _ _ elems => do
    allowed tier e.kindText .array
    match elems with
    | [] => .error .emptyArray
    | first :: rest =>
      let first ← hasValue (← checkExpr tier env first)
      let rest ← checkElems tier env first.ty 1 rest
      return .arrayLit (.array first.ty) first.ty (first :: rest)
  | .arrayFill _ length fill => do
    allowed tier e.kindText .array
    let length ← hasType "array length" .int (← checkExpr tier env length)
    let fill ← hasValue (← checkExpr tier env fill)
    return .arrayFill (.array fill.ty) length fill
  | .index _ array index => do
    allowed tier e.kindText .array
    let array ← hasValue (← checkExpr tier env array)
    let elem ← elemTy array
    let index ← hasType "index" .int (← checkExpr tier env index)
    return .index elem array index

/-- Check the elements of an array from `position` on, which have to be of type `want`. -/
def checkElems (tier : Tier) (env : Env) (want : Ty) :
    (position : Nat) → List Expr → Check (List Expr)
  | _, [] => return []
  | position, e :: rest => do
    let e ← hasValue (← checkExpr tier env e)
    if e.ty = want then
      return e :: (← checkElems tier env want (position + 1) rest)
    else .error (.badElement position e.ty want)

end

/-- Names that a program may assign to: not empty, and not starting with the mark of names that the
compiler makes up. -/
def isVariableName (name : String) : Bool :=
  match name.toList with
  | [] | '@' :: _ => false
  | _ => true

/-- The variables after an assignment. -/
def declare (env : Env) (name : String) (ty : Ty) : Check Env :=
  match env.find? name with
  | none => .ok (env ++ [⟨name, ty⟩])
  | some declared =>
    if declared = ty then .ok env else .error (.badAssignment ty name declared)

/-- Check the condition of a statement. -/
def checkCondition (tier : Tier) (env : Env) (what : String) (cond : Expr) : Check Expr := do
  let cond ← checkExpr tier env cond
  if cond.ty = .bool then .ok cond else .error (.badCondition what cond.ty)

mutual

/-- Check a statement.  The results are the variables after it and the statement with types. -/
def checkStmt (tier : Tier) (env : Env) (s : Stmt) : Check (Env × Stmt) :=
  match s with
  | .missing => .error .missingStatement
  | .expr x => do
    allowed tier s.kindText .loop
    return (env, .expr (← checkExpr tier env x))
  | .assign name value => do
    allowed tier s.kindText .loop
    if !isVariableName name then .error (.badName name)
    let value ← hasValue (← checkExpr tier env value)
    return (← declare env name value.ty, .assign name value)
  | .indexAssign array index value => do
    allowed tier s.kindText .array
    let array ← hasValue (← checkExpr tier env array)
    let elem ← elemTy array
    let index ← hasType "index" .int (← checkExpr tier env index)
    let value ← hasValue (← checkExpr tier env value)
    if value.ty = elem then return (env, .indexAssign array index value)
    else .error (.badStore value.ty elem)
  | .ifElse cond thenBody elseBody => do
    allowed tier s.kindText .loop
    let cond ← checkCondition tier env "if" cond
    let (env, thenBody) ← checkStmts tier env thenBody
    let (env, elseBody) ← checkStmts tier env elseBody
    return (env, .ifElse cond thenBody elseBody)
  | .whileDo cond body => do
    allowed tier s.kindText .loop
    let cond ← checkCondition tier env "while" cond
    let (env, body) ← checkStmts tier env body
    return (env, .whileDo cond body)

/-- Check statements in order. -/
def checkStmts (tier : Tier) (env : Env) : List Stmt → Check (Env × List Stmt)
  | [] => return (env, [])
  | s :: rest => do
    let (env, s) ← checkStmt tier env s
    let (env, rest) ← checkStmts tier env rest
    return (env, s :: rest)

end

/-- Check a program.  The results are its variables and the program with types. -/
def check (tier : Tier) (program : Option (List Stmt)) : Except Error (Env × List Stmt) :=
  match program with
  | none => .error .noModule
  | some stmts => (checkStmts tier [] stmts).mapError .refused

end ArrayLang.Typing
