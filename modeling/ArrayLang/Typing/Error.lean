import ArrayLang.Source.Program
import ArrayLang.Text.Quoted

/-!
# Type errors

What the checker objects to, and how it says so.
-/

namespace ArrayLang.Typing

open Source

/-- Why a program is refused by the checker. -/
inductive Objection where
  | missingStatement
  | missingExpression
  /-- A node, named by its kind, or a function that is not in the language of the tier. -/
  | unavailable (what : String) (tier : Tier)
  | badStore (value elem : Ty)
  | badName (name : String)
  | badAssignment (value : Ty) (name : String) (declared : Ty)
  | badCondition (what : String) (ty : Ty)
  | noValue (kind : String)
  | badOperand (what : String) (want got : Ty)
  | unassigned (name : String)
  | unknownUnary (op : UnaryOp)
  | unknownBinary (op : BinaryOp)
  | identityOfScalars (left right : Ty)
  | equalityOfArrays (op : BinaryOp)
  | operandsDiffer (op : BinaryOp) (left right : Ty)
  | printArity (count : Nat)
  | inputArity (count : Nat)
  | lenArity (count : Nat)
  | lenOfScalar (ty : Ty)
  | unknownFunction (name : String)
  | emptyArray
  | badElement (position : Nat) (ty want : Ty)
  | badIndexed (ty : Ty)
  deriving DecidableEq, Repr

/-- An objection in words. -/
def Objection.message : Objection → String
  | missingStatement => "missing statement"
  | missingExpression => "missing expression"
  | unavailable what tier => s!"{what} is not available in the {tier.text} language"
  | badStore value elem => s!"cannot store {value.text} into an element of type {elem.text}"
  | badName name => s!"invalid variable name {Text.quote name}"
  | badAssignment value name declared =>
    s!"cannot assign {value.text} to {name} of type {declared.text}"
  | badCondition what ty => s!"{what} condition must be bool, got {ty.text}"
  | noValue kind => s!"{kind} produces no value"
  | badOperand what want got => s!"{what} expects {want.text} operands, got {got.text}"
  | unassigned name => s!"variable {name} used before assignment"
  | unknownUnary op => s!"unknown unary operator {op.text}"
  | unknownBinary op => s!"unknown binary operator {op.text}"
  | identityOfScalars left right =>
    s!"is expects array operands, got {left.text} and {right.text}"
  | equalityOfArrays op => s!"{op.text} is not defined for arrays; use is for identity"
  | operandsDiffer op left right => s!"{op.text} operands differ: {left.text} and {right.text}"
  | printArity count => s!"print expects 1 argument, got {count}"
  | inputArity count => s!"input_int expects no arguments, got {count}"
  | lenArity count => s!"len expects 1 argument, got {count}"
  | lenOfScalar ty => s!"len expects an array, got {ty.text}"
  | unknownFunction name => s!"unknown function {name}"
  | emptyArray => "array literal must have at least one element"
  | badElement position ty want =>
    s!"array element {position} has type {ty.text}, want {want.text}"
  | badIndexed ty => s!"cannot index a value of type {ty.text}"

/-- Why a module is not checked: it is not there, or it is refused. -/
inductive Error where
  | noModule
  | refused (o : Objection)
  deriving DecidableEq, Repr

/-- An error in words. -/
def Error.message : Error → String
  | noModule => "check: module must be non-nil"
  | refused o => s!"check: type error: {o.message}"

end ArrayLang.Typing
