import ArrayLang.Emit.Basic

/-!
# Code for arrays

An array is made at the frontier, the first free address, which then moves past it.  A length is
checked before an array is made, and an index before an element is read or written.  A check that
fails reports a message and halts.
-/

namespace ArrayLang.Emit

open Source Code

/-- Report a message and halt. -/
def report (msg : Message) : Block :=
  [.constI32 msg.offset, .constI32 msg.length, .call Host.Function.reportError.name, .trap]

/-- Report a message and halt if the condition holds. -/
def guard (cond : Block) (msg : Message) : Block := cond ++ [.ifElse .none (report msg) []]

/-- The length of an array as an integer. -/
def lengthOf (array : Block) : Block :=
  array ++ [.load .i32, i32Const Layout.lengthShift, .arith .i32 .shrU, .convert .extendU]

/-- The address of an element. -/
def elementAddress (array index : Block) (width : Nat) : Block :=
  array ++ index ++
    [.convert .wrap, i32Const width, .arith .i32 .mul, i32Const Layout.headerSize,
      .arith .i32 .add, .arith .i32 .add]

/-- The largest length of an array whose elements have a width.  It is compared with the length that
is asked for, so that no product can wrap. -/
def maxElements (maxBytes : Int64) (width : Nat) : Int64 :=
  min (maxBytes / Int64.ofNat width) (Int64.ofNat Layout.maxLength)

/-- Refuse a length that is too large or negative. -/
def capacityGuards (t : Target) (length : Block) (width : Nat) : Block :=
  guard (length ++ [.constI64 (maxElements t.maxArrayBytes width), .compare .i64 .gtS])
      t.capacity ++
    guard (length ++ [.constI64 0, .compare .i64 .ltS]) t.capacity

/-- Refuse an index that is negative or not below the length. -/
def accessGuards (t : Target) (array index : Block) : Block :=
  guard (index ++ [.constI64 0, .compare .i64 .ltS]) t.index ++
    guard (index ++ lengthOf array ++ [.compare .i64 .geS]) t.index

/-- Check the length, write the header at the frontier, keep its address in the scratch slot, and
move the frontier past the array. -/
def allocation (t : Target) (length : Block) (elem : Ty) : Block :=
  capacityGuards t length (Layout.width elem) ++
    [.globalGet t.frontier, .localSet arraySlot, .localGet arraySlot] ++ length ++
    [.convert .wrap, i32Const Layout.lengthShift, .arith .i32 .shl,
      .constI32 (Layout.ElemKind.ofTy elem).code.toInt32, .arith .i32 .xor, .store .i32] ++
    [.localGet arraySlot, i32Const Layout.headerSize, .arith .i32 .add] ++ length ++
    [.convert .wrap, i32Const (Layout.width elem), .arith .i32 .mul, .arith .i32 .add,
      .globalSet t.frontier]

/-- Store the element at a position of the array under construction. -/
def elementStore (elem : Ty) (vt : ValType) (position : Nat) (value : Block) : Block :=
  [.localGet arraySlot, i32Const (Layout.headerSize + position * Layout.width elem),
    .arith .i32 .add] ++ value ++ [.store vt]

/-- Store elements from a position on. -/
def elementStores (t : Target) (elem : Ty) (vt : ValType) (position : Nat) :
    List Expr → Emission Block
  | [] => return []
  | e :: rest => do
    let value ← atom t s!"element {position}" e
    return elementStore elem vt position value ++ (← elementStores t elem vt (position + 1) rest)

/-- Code for an array of listed elements. -/
def arrayLit (t : Target) (ty elemTy : Ty) (elems : List Expr) : Emission Block := do
  let elem ← if elemTy.isValid then pure elemTy else elemType ty
  let vt ← representation elem (.element "static")
  useScratch
  let stores ← elementStores t elem vt 0 elems
  return allocation t [.constI64 (Int64.ofNat elems.length)] elem ++ stores ++ [.localGet arraySlot]

/-- Fill the array under construction: while the cursor is below the frontier, store an element and
advance. -/
def fillLoop (t : Target) (labels : LoopLabels) (elem : Ty) (vt : ValType) (fill : Block) : Instr :=
  .block labels.exit [.loop labels.start
    ([.localGet cursorSlot, .globalGet t.frontier, .compare .i32 .ltU, i32Const 0,
        .compare .i32 .eq, .branchIf labels.exit, .localGet cursorSlot] ++ fill ++
      [.store vt, .localGet cursorSlot, i32Const (Layout.width elem), .arith .i32 .add,
        .localSet cursorSlot, .branch labels.start])]

/-- Code for an array of equal elements. -/
def arrayFill (t : Target) (ty : Ty) (length fill : Expr) : Emission Block := do
  let elem ← elemType ty
  let vt ← representation elem (.element "dynamic")
  let length ← atom t "array length" length
  let fill ← atom t "array fill" fill
  let labels ← freshLabels "fill"
  useScratch
  return allocation t length elem ++
    [.localGet arraySlot, i32Const Layout.headerSize, .arith .i32 .add, .localSet cursorSlot,
      fillLoop t labels elem vt fill, .localGet arraySlot]

/-- Code for the address of an element after the check of its index, and the element type. -/
def elementRef (t : Target) (array index : Expr) : Emission (Block × Ty) := do
  let arr ← atom t "indexed array" array
  let idx ← atom t "index" index
  let elem ← elemType array.ty
  return (accessGuards t arr idx ++ elementAddress arr idx (Layout.width elem), elem)

/-- Code for reading an element. -/
def elementRead (t : Target) (array index : Expr) : Emission Block := do
  let (address, elem) ← elementRef t array index
  let vt ← representation elem .bare
  return address ++ [.load vt]

end ArrayLang.Emit
