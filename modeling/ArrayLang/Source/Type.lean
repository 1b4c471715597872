/-!
# Types of the array language

Integers, truth values, arrays of one element type, and the absence of a value.  A node that was
not checked yet has the invalid type.
-/

namespace ArrayLang.Source

/-- A static type. -/
inductive Ty where
  /-- The type of a node that was not checked. -/
  | invalid
  | int
  | bool
  /-- The result of a call that produces no value. -/
  | void
  | array (elem : Ty)
  /-- An array type whose element type is not known. -/
  | bareArray
  /-- A kind outside the language. -/
  | other (kind : Int)
  deriving DecidableEq, Repr, Inhabited

namespace Ty

/-- The type with a kind number; arrays come without an element type. -/
def ofKind (kind : Int) : Ty :=
  if kind = 0 then .invalid
  else if kind = 1 then .int
  else if kind = 2 then .bool
  else if kind = 3 then .bareArray
  else if kind = 4 then .void
  else .other kind

/-- A node with this type was checked. -/
def isValid (ty : Ty) : Bool := ty != .invalid

/-- An array type, with or without a known element type. -/
def isArray : Ty → Bool
  | .array _ | .bareArray => true
  | _ => false

/-- The element type of an array type. -/
def elem? : Ty → Option Ty
  | .array elem => some elem
  | _ => none

/-- How messages and listings name a type. -/
def text : Ty → String
  | .int => "int"
  | .bool => "bool"
  | .void => "void"
  | .array elem => "[]" ++ elem.text
  | .bareArray => "[]?"
  | .invalid | .other _ => "invalid"

/-- What is said of a type that has no element type although it needs one. -/
def notArrayMessage (ty : Ty) : String := s!"ast: {ty.text} is not an array type"

end Ty

/-- A variable with its type. -/
structure Binding where
  name : String
  ty : Ty
  deriving DecidableEq, Repr

/-- The variables of a program in the order of their first assignments. -/
abbrev Env := List Binding

namespace Env

/-- The type of a variable. -/
def find? (env : Env) (name : String) : Option Ty :=
  match env with
  | [] => none
  | b :: rest => if b.name = name then some b.ty else find? rest name

/-- Set the type of a variable; a new variable goes to the end. -/
def put (env : Env) (name : String) (ty : Ty) : Env :=
  match env with
  | [] => [⟨name, ty⟩]
  | b :: rest => if b.name = name then ⟨name, ty⟩ :: rest else b :: put rest name ty

/-- The variables sorted by name. -/
def sorted (env : Env) : List Binding :=
  env.mergeSort fun a b => decide (a.name ≤ b.name)

end Env

end ArrayLang.Source
