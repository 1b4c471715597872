import ArrayLang.Source.Operator
import ArrayLang.Source.Type

/-!
# Programs of the array language

Expressions carry a type, which the checker fills in.  A program is a list of statements.  An
operand or a statement may be missing; every stage reports that when it comes to it.
-/

namespace ArrayLang.Source

/-- An expression with the type of each of its nodes. -/
inductive Expr where
  /-- An expression that is not there. -/
  | missing
  | int (ty : Ty) (value : Int64)
  | bool (ty : Ty) (value : Bool)
  | var (ty : Ty) (name : String)
  | unary (ty : Ty) (op : UnaryOp) (operand : Expr)
  | binary (ty : Ty) (op : BinaryOp) (left right : Expr)
  | call (ty : Ty) (name : String) (args : List Expr)
  /-- An array of the listed elements. -/
  | arrayLit (ty elemTy : Ty) (elems : List Expr)
  /-- An array of `length` elements, each equal to `fill`. -/
  | arrayFill (ty : Ty) (length fill : Expr)
  | index (ty : Ty) (array index : Expr)
  deriving Repr, Inhabited

/-- A statement. -/
inductive Stmt where
  /-- A statement that is not there. -/
  | missing
  | expr (x : Expr)
  | assign (name : String) (value : Expr)
  | indexAssign (array index value : Expr)
  | ifElse (cond : Expr) (thenBody elseBody : List Stmt)
  | whileDo (cond : Expr) (body : List Stmt)
  deriving Repr, Inhabited

/-- The functions that a program can call. -/
inductive Builtin where
  | print
  | inputInt
  | len
  deriving DecidableEq, Repr

/-- The name of a function. -/
def Builtin.text : Builtin → String
  | .print => "print"
  | .inputInt => "input_int"
  | .len => "len"

/-- The function with a name. -/
def Builtin.ofText? (name : String) : Option Builtin :=
  if name = "print" then some .print
  else if name = "input_int" then some .inputInt
  else if name = "len" then some .len
  else none

namespace Expr

/-- The type of an expression. -/
def ty : Expr → Ty
  | missing => .invalid
  | int ty _ | bool ty _ | var ty _ | unary ty _ _ | binary ty _ _ _ | call ty _ _
  | arrayLit ty _ _ | arrayFill ty _ _ | index ty _ _ => ty

/-- The smallest tier with this kind of expression. -/
def tier : Expr → Tier
  | arrayLit .. | arrayFill .. | index .. => .array
  | _ => .loop

/-- A literal or a variable. -/
def isAtomic : Expr → Bool
  | int .. | bool .. | var .. => true
  | _ => false

/-- How messages name the kind of an expression. -/
def kindText : Expr → String
  | missing => "<nil>"
  | int .. => "*ast.IntLiteral"
  | bool .. => "*ast.BoolLiteral"
  | var .. => "*ast.VarRef"
  | unary .. => "*ast.Unary"
  | binary .. => "*ast.Binary"
  | call .. => "*ast.Call"
  | arrayLit .. => "*ast.StaticArray"
  | arrayFill .. => "*ast.DynamicArray"
  | index .. => "*ast.Index"

end Expr

namespace Stmt

/-- The smallest tier with this kind of statement. -/
def tier : Stmt → Tier
  | indexAssign .. => .array
  | _ => .loop

/-- How messages name the kind of a statement. -/
def kindText : Stmt → String
  | missing => "<nil>"
  | expr .. => "*ast.ExprStmt"
  | assign .. => "*ast.Assign"
  | indexAssign .. => "*ast.IndexAssign"
  | ifElse .. => "*ast.If"
  | whileDo .. => "*ast.While"

end Stmt

end ArrayLang.Source
