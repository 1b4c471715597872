/-!
# Operators and language tiers

The loop tier has integers, truth values, conditionals and loops; the array tier adds arrays.
Operators are known by name; a number that stands for none of them is an operator without name.
-/

namespace ArrayLang.Source

/-- A language tier; a larger one has more nodes. -/
structure Tier where
  level : Int
  deriving DecidableEq, Repr

namespace Tier

/-- Integers, truth values, conditionals and loops. -/
def loop : Tier := ⟨0⟩

/-- The loop tier and arrays. -/
def array : Tier := ⟨1⟩

/-- How messages name a tier. -/
def text (t : Tier) : String :=
  if t = loop then "loop" else if t = array then "array" else "unknown"

/-- Nodes of tier `node` are part of the language of tier `t`. -/
def admits (t node : Tier) : Bool := node.level ≤ t.level

end Tier

/-- An operator with one operand. -/
inductive UnaryOp where
  | neg
  | not
  | unknown (code : Int)
  deriving DecidableEq, Repr

namespace UnaryOp

/-- The operator with a number. -/
def ofCode (code : Int) : UnaryOp :=
  if code = 0 then .neg else if code = 1 then .not else .unknown code

/-- The name of an operator. -/
def text : UnaryOp → String
  | .neg => "neg"
  | .not => "not"
  | .unknown _ => "?"

end UnaryOp

/-- An operator with two operands. -/
inductive BinaryOp where
  | add
  | sub
  | mul
  | eq
  | ne
  | lt
  | le
  | gt
  | ge
  | and
  | or
  /-- Two arrays are one and the same. -/
  | is
  | unknown (code : Int)
  deriving DecidableEq, Repr

namespace BinaryOp

/-- The operators that have a name, in the order of their numbers. -/
def named : List BinaryOp := [add, sub, mul, eq, ne, lt, le, gt, ge, and, or, is]

/-- The name of an operator. -/
def text : BinaryOp → String
  | add => "add"
  | sub => "sub"
  | mul => "mul"
  | eq => "eq"
  | ne => "ne"
  | lt => "lt"
  | le => "le"
  | gt => "gt"
  | ge => "ge"
  | and => "and"
  | or => "or"
  | is => "is"
  | unknown _ => "?"

/-- The operator with a number. -/
def ofCode (code : Int) : BinaryOp :=
  if code < 0 then .unknown code else named[code.toNat]?.getD (.unknown code)

/-- The number of an operator. -/
def code : BinaryOp → Int
  | unknown code => code
  | op => named.idxOf op

/-- The operator with a name. -/
def ofText? (name : String) : Option BinaryOp := named.find? fun op => op.text = name

end BinaryOp

end ArrayLang.Source
