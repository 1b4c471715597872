import ArrayLang.Document.Node
import ArrayLang.Source.Program
import ArrayLang.Text.Quoted

/-!
# Reading programs

A program document is a list of statements:

* `{expr: E}`, `{assign: x, value: E}`, `{assign: {index: [A, I]}, value: E}`,
* `{if: E, then: [...], else: [...]}` and `{while: E, do: [...]}`.

An expression is an integer, a truth value, the name of a variable, or a mapping with one operator:
`{neg: E}`, `{not: E}`, `{add: [E, E]}` and its kin, `{index: [E, E]}`, `{array: [E, ...]}`,
`{array: {len: E, fill: E}}`; or `{call: f, args: [...]}`.
-/

namespace ArrayLang.Source

open Document (Node)

/-- Why a document is no program. -/
inductive ReadCause where
  | notStatements
  | notMapping
  | duplicateKey (key : String)
  | noValue
  | badTarget
  | unknownStatement
  | notExpression
  | notOneOperator
  | noLengthOrFill
  | unknownOperator (key : String)
  | badInteger (text : String)
  | badBoolean (text : String)
  | emptyName
  | badScalar (text : String)
  | notExpressions
  | notTwoOperands (count : Nat)
  deriving DecidableEq, Repr

/-- A cause in words. -/
def ReadCause.message : ReadCause → String
  | .notStatements => "expected a list of statements"
  | .notMapping => "expected a mapping"
  | .duplicateKey key => s!"duplicate key {Text.quote key}"
  | .noValue => "assign requires a value"
  | .badTarget => "assignment target must be a variable or an index expression"
  | .unknownStatement => "unknown statement"
  | .notExpression => "expected an expression"
  | .notOneOperator => "expression mapping must have exactly one operator key"
  | .noLengthOrFill => "dynamic array requires len and fill"
  | .unknownOperator key => s!"unknown operator {Text.quote key}"
  | .badInteger text => s!"invalid integer {Text.quote text}"
  | .badBoolean text => s!"invalid boolean {Text.quote text}"
  | .emptyName => "empty identifier"
  | .badScalar text => s!"unsupported scalar {Text.quote text}"
  | .notExpressions => "expected a list of expressions"
  | .notTwoOperands count => s!"expected exactly two operands, got {count}"

/-- Why and on which line a document is no program. -/
structure ReadError where
  line : Nat
  cause : ReadCause
  deriving DecidableEq, Repr

/-- An error in words. -/
def ReadError.message (e : ReadError) : String := s!"line {e.line}: {e.cause.message}"

/-- The result of reading a part of a document. -/
abbrev Read := Except ReadError

/-- Fail at a node. -/
def fail {α : Type} (n : Node) (cause : ReadCause) : Read α := .error ⟨n.line, cause⟩

/-- The entry of a mapping under a key. -/
def lookup (key : String) : (entries : List (Node × Node)) →
    Option { v : Node // sizeOf v < sizeOf entries }
  | [] => none
  | (k, v) :: rest =>
    if k.text = key then some ⟨v, by simp only [List.cons.sizeOf_spec, Prod.mk.sizeOf_spec]; omega⟩
    else (lookup key rest).map fun ⟨v, h⟩ => ⟨v, by simp only [List.cons.sizeOf_spec]; omega⟩

/-- The keys of a mapping differ; `seen` are the keys before these entries. -/
def distinctKeys (seen : List String) : List (Node × Node) → Read Unit
  | [] => .ok ()
  | (k, _) :: rest =>
    if k.text ∈ seen then fail k (.duplicateKey k.text) else distinctKeys (k.text :: seen) rest

/-- The truth value that a scalar stands for, if its tag and its text agree. -/
def truth? : Node → Option Bool
  | .scalar _ tag value =>
    match Document.resolve? tag value with
    | some (.bool b) => some b
    | _ => none
  | _ => none

section

-- Which texts are truth values is up to the document format, so decoding them is a parameter.
variable (decode : Node → Option Bool)

/-- The expression that a scalar stands for. -/
def readScalar (n : Node) (tag value : String) : Read Expr :=
  if tag = "!!int" then
    match Text.literal? value.toList with
    | .ok v => .ok (.int .invalid (Int64.ofInt v))
    | .error _ => fail n (.badInteger value)
  else if tag = "!!bool" then
    match decode n with
    | some b => .ok (.bool .invalid b)
    | none => fail n (.badBoolean value)
  else if tag = "!!str" then
    if value = "" then fail n .emptyName else .ok (.var .invalid value)
  else fail n (.badScalar value)

/-- Two operands out of a list. -/
def pair (n : Node) : List Expr → Read (Expr × Expr)
  | [a, b] => .ok (a, b)
  | operands => fail n (.notTwoOperands operands.length)

mutual

/-- The expression that a node stands for. -/
def readExpr (n : Node) : Read Expr :=
  match n with
  | .scalar _ tag value => readScalar decode n tag value
  | .mapping _ _ entries => do
    distinctKeys [] entries
    match lookup "call" entries with
    | some ⟨callee, _⟩ =>
      match lookup "args" entries with
      | some ⟨args, _⟩ => return .call .invalid callee.text (← readExprs args)
      | none => return .call .invalid callee.text []
    | none =>
      match entries with
      | [(key, operand)] =>
        if key.text = "neg" then return .unary .invalid .neg (← readExpr operand)
        else if key.text = "not" then return .unary .invalid .not (← readExpr operand)
        else if key.text = "array" then readArray operand
        else if key.text = "index" then
          let (a, i) ← pair operand (← readExprs operand)
          return .index .invalid a i
        else
          match BinaryOp.ofText? key.text with
          | none => fail key (.unknownOperator key.text)
          | some op =>
            let (a, b) ← pair operand (← readExprs operand)
            return .binary .invalid op a b
      | _ => fail n .notOneOperator
  | .sequence .. | .alias .. => fail n .notExpression
termination_by sizeOf n
decreasing_by
  all_goals
    simp only [Node.mapping.sizeOf_spec, List.cons.sizeOf_spec, Prod.mk.sizeOf_spec]
    omega

/-- The array that a node describes: its elements, or its length and fill. -/
def readArray (n : Node) : Read Expr :=
  match n with
  | .sequence _ _ items => return .arrayLit .invalid .invalid (← readItems items)
  | .mapping _ _ entries => do
    distinctKeys [] entries
    match lookup "len" entries, lookup "fill" entries with
    | some ⟨length, _⟩, some ⟨fill, _⟩ =>
      let length ← readExpr length
      return .arrayFill .invalid length (← readExpr fill)
    | _, _ => fail n .noLengthOrFill
  | .scalar .. | .alias .. => fail n .notMapping
termination_by sizeOf n
decreasing_by
  all_goals
    simp only [Node.mapping.sizeOf_spec, Node.sequence.sizeOf_spec]
    omega

/-- The expressions of a list. -/
def readExprs (n : Node) : Read (List Expr) :=
  match n with
  | .sequence _ _ items => readItems items
  | .scalar .. | .mapping .. | .alias .. => fail n .notExpressions
termination_by sizeOf n

/-- The expressions that nodes stand for, in order. -/
def readItems (items : List Node) : Read (List Expr) :=
  match items with
  | [] => return []
  | n :: rest => do
    let e ← readExpr n
    return e :: (← readItems rest)
termination_by sizeOf items

end

mutual

/-- The statement that a node stands for. -/
def readStmt (n : Node) : Read Stmt :=
  match n with
  | .mapping _ _ entries => do
    distinctKeys [] entries
    match lookup "expr" entries with
    | some ⟨x, _⟩ => return .expr (← readExpr decode x)
    | none =>
    match lookup "assign" entries with
    | some ⟨target, _⟩ =>
      match lookup "value" entries with
      | none => fail n .noValue
      | some ⟨value, _⟩ =>
        let value ← readExpr decode value
        match target with
        | .scalar _ _ name => return .assign name value
        | _ =>
          match ← readExpr decode target with
          | .index _ array index => return .indexAssign array index value
          | _ => fail target .badTarget
    | none =>
    match lookup "if" entries with
    | some ⟨cond, _⟩ =>
      let cond ← readExpr decode cond
      let thenBody ← match lookup "then" entries with
        | some ⟨body, _⟩ => readStmts body
        | none => pure []
      let elseBody ← match lookup "else" entries with
        | some ⟨body, _⟩ => readStmts body
        | none => pure []
      return .ifElse cond thenBody elseBody
    | none =>
    match lookup "while" entries with
    | some ⟨cond, _⟩ =>
      let cond ← readExpr decode cond
      let body ← match lookup "do" entries with
        | some ⟨body, _⟩ => readStmts body
        | none => pure []
      return .whileDo cond body
    | none => fail n .unknownStatement
  | .scalar .. | .sequence .. | .alias .. => fail n .notMapping
termination_by sizeOf n
decreasing_by
  all_goals
    simp only [Node.mapping.sizeOf_spec]
    omega

/-- The statements of a list; null is the empty list. -/
def readStmts (n : Node) : Read (List Stmt) :=
  match n with
  | .sequence _ _ items => readStmtItems items
  | .scalar _ tag _ => if tag = "!!null" then .ok [] else fail n .notStatements
  | .mapping .. | .alias .. => fail n .notStatements
termination_by sizeOf n

/-- The statements that nodes stand for, in order. -/
def readStmtItems (items : List Node) : Read (List Stmt) :=
  match items with
  | [] => return []
  | n :: rest => do
    let s ← readStmt n
    return s :: (← readStmtItems rest)
termination_by sizeOf items

end

end

/-- Why a text is no program. -/
inductive ProgramError where
  | document (e : Document.DocumentError)
  | read (e : ReadError)
  deriving DecidableEq, Repr

/-- An error in words. -/
def ProgramError.message : ProgramError → String
  | .document e => s!"ast: parse program: {e.message}"
  | .read e => s!"ast: {e.message}"

/-- The program of a text.  A text without a document is the empty program. -/
def readProgram (text : String) : Except ProgramError (List Stmt) :=
  match Document.parse text with
  | .error e => .error (.document e)
  | .ok none => .ok []
  | .ok (some tree) =>
    match readStmts truth? tree.root with
    | .error e => .error (.read e)
    | .ok stmts => .ok stmts

end ArrayLang.Source
