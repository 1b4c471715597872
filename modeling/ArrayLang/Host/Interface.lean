import ArrayLang.Code.Module

/-!
# Functions of the host

The functions that every compiled module imports, in the order of declaration.
-/

namespace ArrayLang.Host

open Code

/-- A function of the host. -/
inductive Function where
  | printInt
  | printBool
  | printRef
  | readInt
  | reportError
  deriving DecidableEq, Repr

namespace Function

/-- All functions. -/
def all : List Function := [printInt, printBool, printRef, readInt, reportError]

/-- The name under which a function is imported. -/
def name : Function → String
  | printInt => "print_i64"
  | printBool => "print_bool"
  | printRef => "print_i32"
  | readInt => "input_i64"
  | reportError => "print_err"

/-- The function with a name. -/
def ofName? (name : String) : Option Function := all.find? fun f => f.name = name

/-- The types of the arguments. -/
def params : Function → List ValType
  | printInt => [.i64]
  | printBool | printRef => [.i32]
  | readInt => []
  | reportError => [.i32, .i32]

/-- The types of the results. -/
def results : Function → List ValType
  | readInt => [.i64]
  | _ => []

end Function

/-- Where modules import from. -/
def space : String := "env"

/-- The name of the memory that modules import. -/
def memoryName : String := "memory"

/-- The imports of a compiled module. -/
def imports : List Import := Function.all.map fun f => ⟨space, f.name, f.params, f.results⟩

end ArrayLang.Host
