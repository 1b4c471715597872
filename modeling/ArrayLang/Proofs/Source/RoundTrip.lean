import ArrayLang.Proofs.Source.Syntax
import ArrayLang.Proofs.Text.Decimal
import ArrayLang.Source.Reading

/-!
# Programs read back

The tree of a program spells every node in the form that program documents have for it.  Reading the
tree gives the program back, whatever its names are: the forms are told apart by the keys of a
mapping and by the kinds of nodes, and a name is never a key.
-/

namespace ArrayLang.Source

open Document (Node)

/-! ## Trees of programs -/

/-- A mapping with the given keys. -/
def form (line : Nat) (fields : List (String × Node)) : Node :=
  .mapping line "!!map" (fields.map fun field => (.scalar line "!!str" field.1, field.2))

mutual

/-- The tree of an expression, with all nodes on one line. -/
def Expr.tree (line : Nat) : Expr → Node
  | missing => .scalar line "!!null" ""
  | int _ value => .scalar line "!!int" (toString value.toInt)
  | bool _ value => .scalar line "!!bool" (toString value)
  | var _ name => .scalar line "!!str" name
  | unary _ op x => form line [(op.text, x.tree line)]
  | binary _ op left right =>
    form line [(op.text, .sequence line "!!seq" [left.tree line, right.tree line])]
  | call _ name args =>
    form line [("call", .scalar line "!!str" name),
      ("args", .sequence line "!!seq" (Expr.listTree line args))]
  | arrayLit _ _ elems => form line [("array", .sequence line "!!seq" (Expr.listTree line elems))]
  | arrayFill _ length fill =>
    form line [("array", form line [("len", length.tree line), ("fill", fill.tree line)])]
  | index _ array i =>
    form line [("index", .sequence line "!!seq" [array.tree line, i.tree line])]

/-- The trees of expressions. -/
def Expr.listTree (line : Nat) : List Expr → List Node
  | [] => []
  | e :: rest => e.tree line :: Expr.listTree line rest

end

mutual

/-- The tree of a statement. -/
def Stmt.tree (line : Nat) : Stmt → Node
  | missing => .scalar line "!!null" ""
  | expr x => form line [("expr", x.tree line)]
  | assign name value =>
    form line [("assign", .scalar line "!!str" name), ("value", value.tree line)]
  | indexAssign array index value =>
    form line [("assign", (Expr.index .invalid array index).tree line), ("value", value.tree line)]
  | ifElse cond thenBody elseBody =>
    form line [("if", cond.tree line),
      ("then", .sequence line "!!seq" (Stmt.listTree line thenBody)),
      ("else", .sequence line "!!seq" (Stmt.listTree line elseBody))]
  | whileDo cond body =>
    form line [("while", cond.tree line),
      ("do", .sequence line "!!seq" (Stmt.listTree line body))]

/-- The trees of statements. -/
def Stmt.listTree (line : Nat) : List Stmt → List Node
  | [] => []
  | s :: rest => s.tree line :: Stmt.listTree line rest

end

/-- The tree of a program. -/
def programTree (line : Nat) (program : List Stmt) : Node :=
  .sequence line "!!seq" (Stmt.listTree line program)

/-- A node that documents have a form for: it is there, its operator is a known one, and its
variable has a name. -/
def Expr.hasForm : Expr → Bool
  | missing => false
  | var _ name => name ≠ ""
  | unary _ op _ => op ∈ [UnaryOp.neg, UnaryOp.not]
  | binary _ op _ _ => op ∈ BinaryOp.named
  | _ => true

/-- A statement that is there. -/
def Stmt.hasForm : Stmt → Bool
  | missing => false
  | _ => true

/-- The texts of truth values are decoded. -/
def DecodesTruth (decode : Node → Option Bool) : Prop :=
  ∀ line b, decode (.scalar line "!!bool" (toString b)) = some b

theorem decodesTruth_truth? : DecodesTruth truth? := by
  intro line b
  cases b <;> rfl

/-! ## Reading single forms -/

@[simp] theorem Read.pure_eq {α : Type} (a : α) : (pure a : Read α) = .ok a := rfl

@[simp] theorem Read.ok_bind {α β : Type} (a : α) (f : α → Read β) :
    (Except.ok a >>= f) = f a := rfl

section

-- An entry that is found comes with a bound on its size, on which the recursion of reading rests.
variable {key : String} {v : Node} {rest : List (Node × Node)}

theorem sizeOf_value_lt (k v : Node) (rest : List (Node × Node)) :
    sizeOf v < sizeOf ((k, v) :: rest) := by
  simp only [List.cons.sizeOf_spec, Prod.mk.sizeOf_spec]
  omega

theorem sizeOf_rest_lt (k v : Node) (rest : List (Node × Node)) :
    sizeOf rest < sizeOf ((k, v) :: rest) := by
  simp only [List.cons.sizeOf_spec]
  omega

@[simp] theorem lookup_nil : lookup key [] = none := rfl

@[simp] theorem lookup_here (line : Nat) (tag : String) :
    lookup key ((.scalar line tag key, v) :: rest) = some ⟨v, sizeOf_value_lt _ v rest⟩ :=
  if_pos rfl

@[simp] theorem lookup_later (line : Nat) (tag : String) {other : String} (h : ¬other = key) :
    lookup key ((.scalar line tag other, v) :: rest) =
      (lookup key rest).map fun found =>
        ⟨found.1, Nat.lt_trans found.2 (sizeOf_rest_lt _ v rest)⟩ :=
  if_neg h

end

section

variable {decode : Node → Option Bool} {line : Nat} {tag name : String} {a b : Node}
  {x y z : Expr} {ns : List Node}

theorem readExprs_sequence : readExprs decode (.sequence line tag ns) = readItems decode ns := by
  rw [readExprs]

theorem readItems_pair (ha : readExpr decode a = .ok x) (hb : readExpr decode b = .ok y) :
    readItems decode [a, b] = .ok [x, y] := by
  rw [readItems, readItems, readItems, ha, hb]
  rfl

theorem readExpr_int (v : Int64) :
    readExpr decode (.scalar line "!!int" (toString v.toInt)) = .ok (.int .invalid v) := by
  rw [readExpr, readScalar, if_pos rfl, Text.literal?_toString]
  simp

theorem readExpr_bool (hdecode : DecodesTruth decode) (v : Bool) :
    readExpr decode (.scalar line "!!bool" (toString v)) = .ok (.bool .invalid v) := by
  rw [readExpr, readScalar, if_neg (by decide), if_pos rfl, hdecode line v]

theorem readExpr_var (h : name ≠ "") :
    readExpr decode (.scalar line "!!str" name) = .ok (.var .invalid name) := by
  rw [readExpr, readScalar, if_neg (by decide), if_neg (by decide), if_pos rfl, if_neg h]

theorem readExpr_unary {op : UnaryOp} (hop : op ∈ [UnaryOp.neg, UnaryOp.not])
    (ha : readExpr decode a = .ok x) :
    readExpr decode (form line [(op.text, a)]) = .ok (.unary .invalid op x) := by
  simp only [List.mem_cons, List.not_mem_nil, or_false] at hop
  rcases hop with rfl | rfl
  all_goals
    rw [form, List.map, List.map, readExpr]
    simp [distinctKeys, Node.text, UnaryOp.text, ha]

theorem ofText?_text : ∀ op ∈ BinaryOp.named, BinaryOp.ofText? op.text = some op := by decide

/-- The name of an operator is no other key of an expression. -/
theorem text_not_mem :
    ∀ op ∈ BinaryOp.named, op.text ∉ ["call", "neg", "not", "array", "index"] := by decide

theorem readExpr_binary {op : BinaryOp} (hop : op ∈ BinaryOp.named)
    (ha : readExpr decode a = .ok x) (hb : readExpr decode b = .ok y) :
    readExpr decode (form line [(op.text, .sequence line tag [a, b])]) =
      .ok (.binary .invalid op x y) := by
  have hkey := text_not_mem op hop
  simp only [List.mem_cons, List.not_mem_nil, or_false, not_or] at hkey
  rw [form, List.map, List.map, readExpr]
  simp [distinctKeys, Node.text, hkey, ofText?_text op hop, readExprs_sequence,
    readItems_pair ha hb, pair]

theorem readExpr_index (ha : readExpr decode a = .ok x) (hb : readExpr decode b = .ok y) :
    readExpr decode (form line [("index", .sequence line tag [a, b])]) =
      .ok (.index .invalid x y) := by
  rw [form, List.map, List.map, readExpr]
  simp [distinctKeys, Node.text, readExprs_sequence, readItems_pair ha hb, pair]

theorem readExpr_call {xs : List Expr} (hns : readItems decode ns = .ok xs) :
    readExpr decode (form line [("call", .scalar line "!!str" name),
      ("args", .sequence line tag ns)]) = .ok (.call .invalid name xs) := by
  rw [form, List.map, List.map, List.map, readExpr]
  · simp [distinctKeys, Node.text, readExprs_sequence, hns]
  · simp

theorem readExpr_arrayLit {xs : List Expr} (hns : readItems decode ns = .ok xs) :
    readExpr decode (form line [("array", .sequence line tag ns)]) =
      .ok (.arrayLit .invalid .invalid xs) := by
  rw [form, List.map, List.map, readExpr]
  simp [distinctKeys, Node.text, readArray, hns]

theorem readExpr_arrayFill (ha : readExpr decode a = .ok x) (hb : readExpr decode b = .ok y) :
    readExpr decode (form line [("array", form line [("len", a), ("fill", b)])]) =
      .ok (.arrayFill .invalid x y) := by
  rw [form, List.map, List.map, readExpr]
  simp [form, distinctKeys, Node.text, readArray, ha, hb]

theorem readStmt_expr (ha : readExpr decode a = .ok x) :
    readStmt decode (form line [("expr", a)]) = .ok (.expr x) := by
  rw [form, List.map, List.map, readStmt]
  simp [distinctKeys, Node.text, ha]

theorem readStmt_assign (ha : readExpr decode a = .ok x) :
    readStmt decode (form line [("assign", .scalar line "!!str" name), ("value", a)]) =
      .ok (.assign name x) := by
  rw [form, List.map, List.map, List.map, readStmt]
  simp [distinctKeys, Node.text, ha]

theorem readStmt_indexAssign {entries : List (Node × Node)}
    (ha : readExpr decode (.mapping line tag entries) = .ok (.index .invalid x y))
    (hb : readExpr decode b = .ok z) :
    readStmt decode (form line [("assign", .mapping line tag entries), ("value", b)]) =
      .ok (.indexAssign x y z) := by
  rw [form, List.map, List.map, List.map, readStmt]
  simp [distinctKeys, Node.text, ha, hb]

theorem readStmts_sequence :
    readStmts decode (.sequence line tag ns) = readStmtItems decode ns := by
  rw [readStmts]

theorem readStmt_ifElse {ms : List Node} {thenBody elseBody : List Stmt}
    (ha : readExpr decode a = .ok x) (hns : readStmtItems decode ns = .ok thenBody)
    (hms : readStmtItems decode ms = .ok elseBody) :
    readStmt decode (form line [("if", a), ("then", .sequence line tag ns),
      ("else", .sequence line tag ms)]) = .ok (.ifElse x thenBody elseBody) := by
  rw [form, List.map, List.map, List.map, List.map, readStmt]
  simp [distinctKeys, Node.text, ha, readStmts_sequence, hns, hms]

theorem readStmt_whileDo {body : List Stmt} (ha : readExpr decode a = .ok x)
    (hns : readStmtItems decode ns = .ok body) :
    readStmt decode (form line [("while", a), ("do", .sequence line tag ns)]) =
      .ok (.whileDo x body) := by
  rw [form, List.map, List.map, List.map, readStmt]
  simp [distinctKeys, Node.text, ha, readStmts_sequence, hns]

end

/-! ## Reading trees -/

section

variable {decode : Node → Option Bool} (line : Nat)

theorem readItems_listTree {es : List Expr}
    (h : ∀ e ∈ es, readExpr decode (e.tree line) = .ok e.bare) :
    readItems decode (Expr.listTree line es) = .ok (Expr.listBare es) := by
  induction es with
  | nil => rw [Expr.listTree, readItems, Expr.listBare, Read.pure_eq]
  | cons e rest ih =>
      obtain ⟨he, hrest⟩ := List.forall_mem_cons.mp h
      rw [Expr.listTree, readItems, he, Read.ok_bind, ih hrest, Read.ok_bind, Expr.listBare,
        Read.pure_eq]

/-- The tree of an expression reads back. -/
theorem readExpr_tree (hdecode : DecodesTruth decode) {e : Expr}
    (h : ∀ x ∈ e.nodes, x.hasForm = true) : readExpr decode (e.tree line) = .ok e.bare := by
  induction e with
  | missing => exact absurd (h .missing (by simp [Expr.nodes])) (by decide)
  | int ty value => exact readExpr_int value
  | bool ty value => exact readExpr_bool hdecode value
  | var ty name =>
      have hname := h (.var ty name) (by simp [Expr.nodes])
      exact readExpr_var (by simpa [Expr.hasForm] using hname)
  | unary ty op x ih =>
      rw [Expr.nodes, List.forall_mem_cons] at h
      exact readExpr_unary (by simpa [Expr.hasForm] using h.1) (ih h.2)
  | binary ty op left right ihl ihr =>
      rw [Expr.nodes, List.forall_mem_cons, List.forall_mem_append] at h
      exact readExpr_binary (by simpa [Expr.hasForm] using h.1) (ihl h.2.1) (ihr h.2.2)
  | call ty name args ih =>
      rw [Expr.nodes, List.forall_mem_cons] at h
      apply readExpr_call
      apply readItems_listTree
      intro a ha
      exact ih a ha fun x hx => h.2 x (Expr.mem_listNodes.mpr ⟨a, ha, hx⟩)
  | arrayLit ty elemTy elems ih =>
      rw [Expr.nodes, List.forall_mem_cons] at h
      apply readExpr_arrayLit
      apply readItems_listTree
      intro e he
      exact ih e he fun x hx => h.2 x (Expr.mem_listNodes.mpr ⟨e, he, hx⟩)
  | arrayFill ty length fill ihn ihv =>
      rw [Expr.nodes, List.forall_mem_cons, List.forall_mem_append] at h
      exact readExpr_arrayFill (ihn h.2.1) (ihv h.2.2)
  | index ty array i iha ihi =>
      rw [Expr.nodes, List.forall_mem_cons, List.forall_mem_append] at h
      exact readExpr_index (iha h.2.1) (ihi h.2.2)

/-- The tree of a statement reads back. -/
def ReadsBack (decode : Node → Option Bool) (line : Nat) (s : Stmt) : Prop :=
  s.every Stmt.hasForm = true → (∀ x ∈ s.nodes, x.hasForm = true) →
    readStmt decode (s.tree line) = .ok s.bare

theorem readStmtItems_listTree {ss : List Stmt} (h : ∀ s ∈ ss, ReadsBack decode line s)
    (hstmts : Stmt.listEvery Stmt.hasForm ss = true)
    (hnodes : ∀ x ∈ Stmt.listNodes ss, x.hasForm = true) :
    readStmtItems decode (Stmt.listTree line ss) = .ok (Stmt.listBare ss) := by
  induction ss with
  | nil => rw [Stmt.listTree, readStmtItems, Stmt.listBare, Read.pure_eq]
  | cons s rest ih =>
      obtain ⟨hs, hrest⟩ := List.forall_mem_cons.mp h
      rw [Stmt.listEvery, Bool.and_eq_true] at hstmts
      rw [Stmt.listNodes, List.forall_mem_append] at hnodes
      rw [Stmt.listTree, readStmtItems, hs hstmts.1 hnodes.1, Read.ok_bind,
        ih hrest hstmts.2 hnodes.2, Read.ok_bind, Stmt.listBare, Read.pure_eq]

theorem readsBack (hdecode : DecodesTruth decode) (s : Stmt) : ReadsBack decode line s := by
  induction s with
  | missing =>
      intro hpresent _
      exact absurd hpresent (by decide)
  | expr x =>
      intro _ hnodes
      exact readStmt_expr (readExpr_tree line hdecode hnodes)
  | assign name value =>
      intro _ hnodes
      exact readStmt_assign (readExpr_tree line hdecode hnodes)
  | indexAssign array index value =>
      intro _ hnodes
      rw [Stmt.nodes, List.forall_mem_append, List.forall_mem_append] at hnodes
      obtain ⟨⟨harray, hindex⟩, hvalue⟩ := hnodes
      apply readStmt_indexAssign
      · exact readExpr_index (readExpr_tree line hdecode harray) (readExpr_tree line hdecode hindex)
      · exact readExpr_tree line hdecode hvalue
  | ifElse cond thenBody elseBody ihthen ihelse =>
      intro hpresent hnodes
      rw [Stmt.nodes, List.forall_mem_append, List.forall_mem_append] at hnodes
      simp only [Stmt.every, Bool.and_eq_true] at hpresent
      obtain ⟨⟨hcond, hthen⟩, helse⟩ := hnodes
      apply readStmt_ifElse (readExpr_tree line hdecode hcond)
      · exact readStmtItems_listTree line ihthen hpresent.1.2 hthen
      · exact readStmtItems_listTree line ihelse hpresent.2 helse
  | whileDo cond body ih =>
      intro hpresent hnodes
      rw [Stmt.nodes, List.forall_mem_append] at hnodes
      simp only [Stmt.every, Bool.and_eq_true] at hpresent
      apply readStmt_whileDo (readExpr_tree line hdecode hnodes.1)
      exact readStmtItems_listTree line ih hpresent.2 hnodes.2

end

/-- The tree of a program without types reads back, if nothing is missing, its operators are known
and its variables have names.  Of the document format it is assumed that the texts of truth values
are decoded. -/
theorem readStmts_programTree {decode : Node → Option Bool} (hdecode : DecodesTruth decode)
    (line : Nat) {program : List Stmt} (hbare : Stmt.listBare program = program)
    (hstmts : Stmt.listEvery Stmt.hasForm program = true)
    (hnodes : ∀ x ∈ Stmt.listNodes program, x.hasForm = true) :
    readStmts decode (programTree line program) = .ok program := by
  rw [programTree, readStmts_sequence,
    readStmtItems_listTree line (fun s _ => readsBack line hdecode s) hstmts hnodes, hbare]

/-- Variables that are named like keys, like truth values and like numbers, and the extreme
integers. -/
theorem keywords_read_back :
    let program : List Stmt :=
      [.assign "call" (.int .invalid Int64.minValue),
        .ifElse (.binary .invalid .and (.var .invalid "true") (.unary .invalid .not
            (.bool .invalid false)))
          [.indexAssign (.var .invalid "index") (.var .invalid "42")
            (.call .invalid "array" [.var .invalid "len", .var .invalid "fill"])]
          [.whileDo (.var .invalid "do") []],
        .expr (.arrayFill .invalid (.int .invalid Int64.maxValue)
          (.arrayLit .invalid .invalid []))]
    readStmts truth? (programTree 1 program) = .ok program := by
  intro program
  exact readStmts_programTree decodesTruth_truth? 1 rfl rfl (by decide)

end ArrayLang.Source
