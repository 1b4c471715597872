import ArrayLang.Emit.Array

/-!
# Code for expressions

The code of an expression leaves its value on the operand stack, or nothing if it has no value.
-/

namespace ArrayLang.Emit

open Source Code

/-- Code for an operator with one operand. -/
def unaryCode (op : UnaryOp) (x : Block) : Emission Block :=
  match op with
  | .neg => return .constI64 0 :: x ++ [.arith .i64 .sub]
  | .not => return x ++ [i32Const 0, .compare .i32 .eq]
  | .unknown _ => throw (.unknownUnary op)

/-- Code for equality, at the width of the left operand. -/
def equalityCode (ty : Ty) (op : CompareOp) (left right : Block) : Emission Block :=
  match ty with
  | .int => return left ++ right ++ [.compare .i64 op]
  | .bool => return left ++ right ++ [.compare .i32 op]
  | _ => throw (.equality ty)

/-- Code for an operator with two operands; `ty` is the type of the left one.  The right operand of
`and` and `or` runs only if it is needed. -/
def binaryCode (op : BinaryOp) (ty : Ty) (left right : Block) : Emission Block :=
  match op with
  | .add => return left ++ right ++ [.arith .i64 .add]
  | .sub => return left ++ right ++ [.arith .i64 .sub]
  | .mul => return left ++ right ++ [.arith .i64 .mul]
  | .lt => return left ++ right ++ [.compare .i64 .ltS]
  | .le => return left ++ right ++ [.compare .i64 .leS]
  | .gt => return left ++ right ++ [.compare .i64 .gtS]
  | .ge => return left ++ right ++ [.compare .i64 .geS]
  | .eq => equalityCode ty .eq left right
  | .ne => equalityCode ty .ne left right
  | .and => return left ++ [.ifElse .i32 right [i32Const 0]]
  | .or => return left ++ [.ifElse .i32 [i32Const 1] right]
  | .is => return left ++ right ++ [.compare .i32 .eq]
  | .unknown _ => throw (.unknownBinary op)

/-- The function of the host that prints values of a type. -/
def printFunction (ty : Ty) : Emission Host.Function :=
  match ty with
  | .int => return .printInt
  | .bool => return .printBool
  | .array _ | .bareArray => return .printRef
  | _ => throw (.badPrint ty)

/-- Code for a call; `code` is the code of its arguments. -/
def callCode (t : Target) (name : String) (args : List Expr) (code : Block) : Emission Block :=
  match Builtin.ofText? name with
  | some .print =>
    match args with
    | [x] => do
      let f ← printFunction x.ty
      return code ++ [.call f.name]
    | _ => throw (.printArity args.length)
  | some .inputInt =>
    if args.isEmpty then return [.call Host.Function.readInt.name]
    else throw (.inputArity args.length)
  | some .len =>
    if args.length ≠ 1 then throw (.lenArity args.length)
    else do
      requireTier t "len" .array
      return lengthOf code
  | none => throw (.unknownCall name)

mutual

/-- Code for an expression. -/
def expr (t : Target) (e : Expr) : Emission Block :=
  match e with
  | .missing => throw .missingExpression
  | .int .. | .bool .. | .var .. => do
    accept t e
    return atomCode e
  | .unary _ op x => do
    accept t e
    let x ← expr t x
    unaryCode op x
  | .binary _ op left right => do
    accept t e
    let l ← expr t left
    let r ← expr t right
    binaryCode op left.ty l r
  | .call _ name args => do
    accept t e
    let code ← exprs t args
    callCode t name args code
  | .arrayLit ty elemTy elems => do
    accept t e
    arrayLit t ty elemTy elems
  | .arrayFill ty length fill => do
    accept t e
    arrayFill t ty length fill
  | .index _ array index => do
    accept t e
    elementRead t array index

/-- Code for expressions from first to last. -/
def exprs (t : Target) : List Expr → Emission Block
  | [] => return []
  | e :: rest => do
    let first ← expr t e
    return first ++ (← exprs t rest)

end

end ArrayLang.Emit
