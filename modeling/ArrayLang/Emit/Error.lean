import ArrayLang.Source.Program
import ArrayLang.Text.Quoted

/-!
# Errors of code generation

Checked programs in normal form have none of these; a program that was made by hand may have any.
-/

namespace ArrayLang.Emit

open Source

/-- What lacks a type. -/
inductive Untyped where
  /-- A type that has no representation. -/
  | bare
  /-- A node, named by its kind. -/
  | node (kind : String)
  /-- An array type without an element type. -/
  | noElement (ty : Ty)
  /-- The element type of an array that is made. -/
  | element (form : String)
  deriving DecidableEq, Repr

/-- Why there is no code for a program. -/
inductive Error where
  | missingExpression
  | missingStatement
  | untyped (what : Untyped)
  | tier (what : String) (needed : Tier)
  | unknownUnary (op : UnaryOp)
  | unknownBinary (op : BinaryOp)
  | equality (ty : Ty)
  | badStore (ty : Ty)
  | printArity (count : Nat)
  | inputArity (count : Nat)
  | lenArity (count : Nat)
  | unknownCall (name : String)
  | badPrint (ty : Ty)
  /-- An operand of an array operation that is neither a literal nor a variable. -/
  | notAtomic (what : String) (kind : String)
  deriving DecidableEq, Repr

/-- What lacks a type, in words. -/
def Untyped.message : Untyped → String
  | bare => "codegen: node has no type"
  | node kind => s!"codegen: node has no type: {kind}"
  | noElement ty => s!"codegen: node has no type: {ty.text} has no element type"
  | element form => s!"codegen: node has no type: {form} array element type"

/-- An error in words. -/
def Error.message : Error → String
  | missingExpression => "codegen: nil expression"
  | missingStatement => "codegen: nil statement"
  | untyped what => what.message
  | tier what needed =>
    s!"codegen: node not available in this language tier: {what} requires the {needed.text} tier"
  | unknownUnary op => s!"codegen: unsupported unary operator {op.text}"
  | unknownBinary op => s!"codegen: unsupported binary operator {op.text}"
  | equality ty => s!"codegen: equality is not defined for {ty.text} operands"
  | badStore ty => s!"codegen: cannot store a {ty.text} value"
  | printArity count => s!"codegen: print expects 1 argument, got {count}"
  | inputArity count => s!"codegen: input_int expects no arguments, got {count}"
  | lenArity count => s!"codegen: len expects 1 argument, got {count}"
  | unknownCall name => s!"codegen: unknown builtin {Text.quote name}"
  | badPrint ty => s!"codegen: cannot print a value of type {ty.text}"
  | notAtomic what kind => s!"codegen: array operand is not atomic: {what} is {kind}"

end ArrayLang.Emit
