import ArrayLang.Code.Instr
import ArrayLang.Source.Type

/-!
# Arrays in memory

An array is a header word and its elements.  The header holds the length in its upper 28 bits and
the kind of the elements in its lower four.  An integer element takes eight bytes, any other four.
-/

namespace ArrayLang.Layout

open Source Code

/-- The number of bytes in front of the first element. -/
def headerSize : Nat := 4

/-- The number of bits below the length in a header. -/
def lengthShift : Nat := 4

/-- The largest length that a header can hold. -/
def maxLength : Nat := 0xfffffff

/-- What the elements of an array are. -/
inductive ElemKind where
  | scalar
  | array
  deriving DecidableEq, Repr

namespace ElemKind

/-- The number of a kind in a header. -/
def code : ElemKind → UInt32
  | scalar => 1
  | array => 3

/-- The kind of a type of elements. -/
def ofTy (elem : Ty) : ElemKind := if elem.isArray then array else scalar

/-- The kind with a number. -/
def ofCode? (code : UInt32) : Option ElemKind :=
  if code = 1 then some scalar else if code = 3 then some array else none

/-- The name of a kind. -/
def text : ElemKind → String
  | scalar => "scalar"
  | array => "array"

/-- The name of the kind with a number. -/
def codeText (code : UInt32) : String := ((ofCode? code).map text).getD "unknown"

end ElemKind

/-- The header of an array. -/
def encodeHeader (length kind : UInt32) : UInt32 := (length <<< 4) ^^^ kind

/-- The length and the kind in a header. -/
def decodeHeader (header : UInt32) : UInt32 × UInt32 := (header >>> 4, header &&& 15)

/-- The number of bytes of an element. -/
def width (elem : Ty) : Nat := if elem = .int then 8 else 4

/-- How a value of a type is represented on the operand stack. -/
def valType? : Ty → Option ValType
  | .int => some .i64
  | .bool | .array _ | .bareArray => some .i32
  | .void => some .none
  | .invalid | .other _ => none

/-- The element type of an array type, if it is known and valid. -/
def elemType? (ty : Ty) : Option Ty :=
  match ty.elem? with
  | some elem => if elem.isValid then some elem else none
  | none => none

end ArrayLang.Layout
