import ArrayLang.Proofs.Reference.World
import ArrayLang.Proofs.Source.Syntax

/-!
# Meaning of programs

Operands are evaluated once and from left to right, before the operation that uses them.  The right
operand of `and` and `or` is evaluated only if it is needed.  An index assignment evaluates the
array and the index, checks the index, evaluates the value and stores it.

What a program means is said for programs with types.  A node without a meaning of its own, such as
a missing operand, has the value zero.
-/

namespace ArrayLang.Reference

open Source Code Machine Emit

/-! ## Values -/

/-- A truth value that is a word. -/
def truth (value : UInt64) : Bool := value.toUInt32 != 0

/-- The word of a truth value. -/
def ofBool (b : Bool) : UInt64 := if b then 1 else 0

/-- The result of an operator that evaluates its operand. -/
def unaryValue (op : UnaryOp) (x : UInt64) : UInt64 :=
  match op with
  | .neg => 0 - x
  | .not => ofBool (x.toUInt32 == 0)
  | .unknown _ => 0

/-- The two operands are equal at the width of their type. -/
def equalAt (ty : Ty) (x y : UInt64) : Bool :=
  if ty = .int then x == y else x.toUInt32 == y.toUInt32

/-- The result of an operator that evaluates both operands; `ty` is the type of the left one. -/
def binaryValue (op : BinaryOp) (ty : Ty) (x y : UInt64) : UInt64 :=
  match op with
  | .add => x + y
  | .sub => x - y
  | .mul => x * y
  | .eq => ofBool (equalAt ty x y)
  | .ne => ofBool (!equalAt ty x y)
  | .lt => ofBool (x.toInt64 < y.toInt64)
  | .le => ofBool (x.toInt64 ≤ y.toInt64)
  | .gt => ofBool (y.toInt64 < x.toInt64)
  | .ge => ofBool (y.toInt64 ≤ x.toInt64)
  | .is => ofBool (x.toUInt32 == y.toUInt32)
  | .and | .or | .unknown _ => 0

/-! ## Arrays -/

/-- The type of the elements of an array type. -/
def elemOf (ty : Ty) : Ty := ty.elem?.getD .invalid

/-- How an element of a type lies in memory. -/
def cellType (elem : Ty) : ValType := (Layout.valType? elem).getD .none

/-- An array of this length may be made: it is not negative, its elements take no more bytes than
allowed, and a header can hold it. -/
def fits (t : Target) (length : UInt64) (elem : Ty) : Bool :=
  let n := length.toInt64.toInt
  0 ≤ n && n * Layout.width elem ≤ t.maxArrayBytes.toInt && n ≤ Layout.maxLength

/-- The first address behind an array with a header at `base`. -/
def pastArray (base length : UInt32) (elem : Ty) : UInt32 :=
  base + UInt32.ofNat Layout.headerSize + length * UInt32.ofNat (Layout.width elem)

/-- Write a header at the frontier and move the frontier behind the new array. -/
def allocate (t : Target) (length : UInt64) (elem : Ty) : Eval UInt32 := do
  require (fits t length elem) t.capacity
  let base := (← get).frontier
  let n := length.toUInt32
  store .make base .i32 base (Layout.encodeHeader n (Layout.ElemKind.ofTy elem).code).toUInt64
  note (.made ⟨base, n, elem⟩)
  modify fun w => { w with frontier := pastArray base n elem }
  return base

/-- Store elements from a position on. -/
def storeElems (base : UInt32) (elem : Ty) : (position : Nat) → List UInt64 → Eval Unit
  | _, [] => return ()
  | position, v :: rest => do
    store .make base (cellType elem)
      (base + UInt32.ofNat (Layout.headerSize + position * Layout.width elem)) v
    storeElems base elem (position + 1) rest

/-- Make an array of the listed elements. -/
def makeList (t : Target) (elem : Ty) (values : List UInt64) : Eval UInt64 := do
  let base ← allocate t (Int64.ofNat values.length).toUInt64 elem
  storeElems base elem 0 values
  return base.toUInt64

/-- Store a value from a cursor on, as long as the cursor is below the frontier.  Each test of the
cursor takes fuel. -/
def fillFrom (base : UInt32) (elem : Ty) (value : UInt64) :
    (bound : Nat) → (cursor : UInt32) → Eval Unit
  | 0, _ => throw .canceled
  | bound + 1, cursor => do
    tick
    if cursor < (← get).frontier then
      store .make base (cellType elem) cursor value
      fillFrom base elem value bound (cursor + UInt32.ofNat (Layout.width elem))

/-- Store a value from a cursor up to the frontier. -/
def fillArray (base : UInt32) (elem : Ty) (value : UInt64) (cursor : UInt32) : Eval Unit := do
  fillFrom base elem value (← get).fuel cursor

/-- Make an array of equal elements. -/
def makeFill (t : Target) (elem : Ty) (length value : UInt64) : Eval UInt64 := do
  let base ← allocate t length elem
  fillArray base elem value (base + UInt32.ofNat Layout.headerSize)
  return base.toUInt64

/-- The length in the header of an array. -/
def lengthAt (purpose : Purpose) (array : UInt64) : Eval UInt32 := do
  let base := array.toUInt32
  let header ← load purpose base .i32 base
  return (Layout.decodeHeader header.toUInt32).1

/-- Check that an index is not negative and below the length. -/
def checkIndex (t : Target) (purpose : Purpose) (array index : UInt64) : Eval Unit := do
  require (0 ≤ index.toInt64.toInt) t.index
  let length ← lengthAt purpose array
  require (index.toInt64.toInt < length.toNat) t.index

/-- The address of an element. -/
def elementAt (elem : Ty) (array index : UInt64) : UInt32 :=
  array.toUInt32 + UInt32.ofNat Layout.headerSize +
    index.toUInt32 * UInt32.ofNat (Layout.width elem)

/-- The address of an element, after the check of its index. -/
def locate (t : Target) (purpose : Purpose) (elem : Ty) (array index : UInt64) : Eval UInt32 := do
  checkIndex t purpose array index
  return elementAt elem array index

/-- Read an element. -/
def readElem (t : Target) (elem : Ty) (array index : UInt64) : Eval UInt64 := do
  let address ← locate t .read elem array index
  load .read array.toUInt32 (cellType elem) address

/-! ## Expressions -/

/-- Call a function with values. -/
def callValue (name : String) (args : List Expr) (values : List UInt64) : Eval UInt64 :=
  match Builtin.ofText? name, args, values with
  | some .print, [x], [v] => do
    print x.ty v
    return 0
  | some .inputInt, [], _ => input
  | some .len, _, [v] => return (← lengthAt .length v).toUInt64
  | _, _, _ => return 0

mutual

/-- The value of an expression. -/
def evalExpr (t : Target) (e : Expr) : Eval UInt64 :=
  match e with
  | .missing => return 0
  | .int _ value => return value.toUInt64
  | .bool _ value => return ofBool value
  | .var _ name => readVar name
  | .unary _ op x => return unaryValue op (← evalExpr t x)
  | .binary _ .and left right => do
    let x ← evalExpr t left
    note (.choice .and right x)
    if truth x then evalExpr t right else return 0
  | .binary _ .or left right => do
    let x ← evalExpr t left
    note (.choice .or right x)
    if truth x then return 1 else evalExpr t right
  | .binary _ op left right => do
    let x ← evalExpr t left
    let y ← evalExpr t right
    return binaryValue op left.ty x y
  | .call _ name args => do
    let values ← evalExprs t args
    callValue name args values
  | .arrayLit _ elemTy elems => do
    let values ← evalExprs t elems
    makeList t elemTy values
  | .arrayFill ty length fill => do
    let n ← evalExpr t length
    let v ← evalExpr t fill
    makeFill t (elemOf ty) n v
  | .index _ array index => do
    let a ← evalExpr t array
    let i ← evalExpr t index
    readElem t (elemOf array.ty) a i

/-- The values of expressions from first to last. -/
def evalExprs (t : Target) : List Expr → Eval (List UInt64)
  | [] => return []
  | e :: rest => do
    let v ← evalExpr t e
    return v :: (← evalExprs t rest)

end

section

variable (t : Target)

theorem evalExpr_strict {ty : Ty} {op : BinaryOp} {left right : Expr}
    (hand : op ≠ .and) (hor : op ≠ .or) :
    evalExpr t (.binary ty op left right) = do
      let x ← evalExpr t left
      let y ← evalExpr t right
      return binaryValue op left.ty x y := by
  rw [evalExpr]
  · exact hand
  · exact hor

theorem evalExprs_singleton (x : Expr) :
    evalExprs t [x] = do
      let v ← evalExpr t x
      return [v] := by
  rw [evalExprs, evalExprs]
  rfl

theorem evalExprs_append (es es' : List Expr) :
    evalExprs t (es ++ es') = do
      let vs ← evalExprs t es
      let vs' ← evalExprs t es'
      return vs ++ vs' := by
  induction es with
  | nil => simp [evalExprs]
  | cons e rest ih => simp [evalExprs, ih, bind_assoc]

theorem callValue_print (x : Expr) (value : UInt64) :
    callValue Builtin.print.text [x] [value] = do
      print x.ty value
      return 0 := rfl

theorem callValue_input (values : List UInt64) :
    callValue Builtin.inputInt.text [] values = input := by
  cases values <;> rfl

theorem callValue_len (args : List Expr) (value : UInt64) :
    callValue Builtin.len.text args [value] = do
      return (← lengthAt .length value).toUInt64 := by
  cases args <;> rfl

end

/-! ## Statements -/

/-- The truth of a condition. -/
def holds (t : Target) (cond : Expr) : Eval Bool := return truth (← evalExpr t cond)

mutual

/-- Run a statement. -/
def runStmt (t : Target) (s : Stmt) : Eval Unit :=
  match s with
  | .missing => return ()
  | .expr x => do
    let _ ← evalExpr t x
  | .assign name value => do
    let v ← evalExpr t value
    assignVar name v
  | .indexAssign array index value => do
    let a ← evalExpr t array
    let i ← evalExpr t index
    let address ← locate t .write (elemOf array.ty) a i
    let v ← evalExpr t value
    store .write a.toUInt32 (cellType value.ty) address v
  | .ifElse cond thenBody elseBody => do
    if ← holds t cond then runStmts t thenBody else runStmts t elseBody
  | .whileDo cond body => do
    loop (holds t cond) (runStmts t body) (← get).fuel

/-- Run statements from first to last. -/
def runStmts (t : Target) : List Stmt → Eval Unit
  | [] => return ()
  | s :: rest => do
    runStmt t s
    runStmts t rest

end

theorem runStmts_append {t : Target} (ss ss' : List Stmt) :
    runStmts t (ss ++ ss') = (do runStmts t ss; runStmts t ss') := by
  induction ss with
  | nil => simp [runStmts]
  | cons s rest ih => simp [runStmts, ih, bind_assoc]

theorem runStmts_singleton {t : Target} (s : Stmt) : runStmts t [s] = runStmt t s := by
  simp [runStmts]

/-! ## Literals and variables -/

/-- The value of a literal or a variable. -/
def atomValue (vars : String → UInt64) : Expr → UInt64
  | .int _ value => value.toUInt64
  | .bool _ value => ofBool value
  | .var _ name => vars name
  | _ => 0

theorem atomValue_congr {vars vars' : String → UInt64} {e : Expr}
    (h : ∀ x ∈ e.names, vars x = vars' x) : atomValue vars e = atomValue vars' e := by
  cases e with
  | var ty name => exact h name (by simp [Expr.names])
  | _ => rfl

/-- The world after variables were read. -/
def World.reads (w : World) (names : List String) : World :=
  { w with history := w.history ++ names.map .read }

@[simp] theorem World.accesses_reads (w : World) (names : List String) :
    (w.reads names).accesses = w.accesses := by
  have hread : (names.map Event.read).filterMap Event.access? = [] := by
    rw [List.filterMap_eq_nil_iff]
    intro e he
    obtain ⟨name, -, rfl⟩ := List.mem_map.mp he
    rfl
  rw [World.accesses, World.reads, List.filterMap_append, hread, List.append_nil, World.accesses]

theorem World.reads_reads (w : World) (names others : List String) :
    (w.reads names).reads others = w.reads (names ++ others) := by
  simp [World.reads]

section

variable (t : Target) (w : World)

/-- A literal or a variable has its value, whatever the world. -/
theorem evalExpr_atom {e : Expr} (h : e.isAtomic = true) :
    evalExpr t e w = .ok (atomValue w.vars e) (w.reads e.names) := by
  cases e with
  | int | bool => simp [evalExpr, atomValue, Expr.names, World.reads]
  | var ty name => simp [evalExpr, atomValue, Expr.names, World.reads, World.note]
  | _ => simp [Expr.isAtomic] at h

theorem evalExprs_atoms {es : List Expr} (h : es.all Expr.isAtomic = true) :
    evalExprs t es w = .ok (es.map (atomValue w.vars)) (w.reads (Expr.listNames es)) := by
  induction es generalizing w with
  | nil => simp [evalExprs, Expr.listNames, World.reads]
  | cons e rest ih =>
      obtain ⟨he, hrest⟩ : e.isAtomic = true ∧ rest.all Expr.isAtomic = true := by
        simpa using h
      rw [evalExprs, run_bind_ok w (evalExpr_atom t w he), run_bind_ok _ (ih _ hrest), run_pure,
        World.reads_reads]
      rfl

end

end ArrayLang.Reference
