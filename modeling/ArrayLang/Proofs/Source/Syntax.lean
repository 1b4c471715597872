import ArrayLang.Source.Program

/-!
# Syntax

Induction over expressions and statements with one hypothesis for all members of a list, programs
without types, the names, the nodes and the lengths in a program, and programs in normal form.
-/

namespace ArrayLang.Source

/-! ## Induction -/

/-- Induction over expressions. -/
@[induction_eliminator]
theorem Expr.induct {P : Expr → Prop}
    (missing : P .missing)
    (int : ∀ ty value, P (.int ty value))
    (bool : ∀ ty value, P (.bool ty value))
    (var : ∀ ty name, P (.var ty name))
    (unary : ∀ ty op x, P x → P (.unary ty op x))
    (binary : ∀ ty op left right, P left → P right → P (.binary ty op left right))
    (call : ∀ ty name args, (∀ a ∈ args, P a) → P (.call ty name args))
    (arrayLit : ∀ ty elemTy elems, (∀ e ∈ elems, P e) → P (.arrayLit ty elemTy elems))
    (arrayFill : ∀ ty length fill, P length → P fill → P (.arrayFill ty length fill))
    (index : ∀ ty array index, P array → P index → P (.index ty array index))
    (e : Expr) : P e :=
  @Expr.rec P (fun es => ∀ e ∈ es, P e)
    missing int bool var unary binary call arrayLit arrayFill index
    (by simp)
    (fun e rest he hrest => by
      intro x hx
      rcases List.mem_cons.mp hx with rfl | hx
      · exact he
      · exact hrest x hx)
    e

/-- Induction over statements. -/
@[induction_eliminator]
theorem Stmt.induct {P : Stmt → Prop}
    (missing : P .missing)
    (expr : ∀ x, P (.expr x))
    (assign : ∀ name value, P (.assign name value))
    (indexAssign : ∀ array index value, P (.indexAssign array index value))
    (ifElse : ∀ cond thenBody elseBody, (∀ s ∈ thenBody, P s) → (∀ s ∈ elseBody, P s) →
      P (.ifElse cond thenBody elseBody))
    (whileDo : ∀ cond body, (∀ s ∈ body, P s) → P (.whileDo cond body))
    (s : Stmt) : P s :=
  @Stmt.rec P (fun ss => ∀ s ∈ ss, P s)
    missing expr assign indexAssign ifElse whileDo
    (by simp)
    (fun s rest hs hrest => by
      intro x hx
      rcases List.mem_cons.mp hx with rfl | hx
      · exact hs
      · exact hrest x hx)
    s

/-! ## Functions on lists -/

section

variable {α β : Type}

/-- A function that puts together what another one gives for the members of a list. -/
theorem eq_flatMap {f : α → List β} {g : List α → List β} (hnil : g [] = [])
    (hcons : ∀ a rest, g (a :: rest) = f a ++ g rest) (as : List α) : g as = as.flatMap f := by
  induction as with
  | nil => exact hnil
  | cons a rest ih => rw [hcons, ih, List.flatMap_cons]

theorem append_of_eq_flatMap {f : α → List β} {g : List α → List β}
    (h : ∀ as, g as = as.flatMap f) (as bs : List α) : g (as ++ bs) = g as ++ g bs := by
  rw [h, h, h, List.flatMap_append]

/-- A function that says whether a condition holds of all members of a list. -/
theorem eq_all {p : α → Bool} {g : List α → Bool} (hnil : g [] = true)
    (hcons : ∀ a rest, g (a :: rest) = (p a && g rest)) (as : List α) : g as = as.all p := by
  induction as with
  | nil => exact hnil
  | cons a rest ih => rw [hcons, ih, List.all_cons]

theorem append_of_eq_all {p : α → Bool} {g : List α → Bool} (h : ∀ as, g as = as.all p)
    {as bs : List α} : g (as ++ bs) = true ↔ g as = true ∧ g bs = true := by
  rw [h, h, h, List.all_append, Bool.and_eq_true]

end

/-! ## Types left out -/

mutual

/-- An expression without the types on its nodes. -/
def Expr.bare : Expr → Expr
  | missing => missing
  | int _ value => int .invalid value
  | bool _ value => bool .invalid value
  | var _ name => var .invalid name
  | unary _ op x => unary .invalid op x.bare
  | binary _ op left right => binary .invalid op left.bare right.bare
  | call _ name args => call .invalid name (Expr.listBare args)
  | arrayLit _ _ elems => arrayLit .invalid .invalid (Expr.listBare elems)
  | arrayFill _ length fill => arrayFill .invalid length.bare fill.bare
  | index _ array i => index .invalid array.bare i.bare

/-- Expressions without the types on their nodes. -/
def Expr.listBare : List Expr → List Expr
  | [] => []
  | e :: rest => e.bare :: Expr.listBare rest

end

mutual

/-- A statement without the types on its nodes. -/
def Stmt.bare : Stmt → Stmt
  | missing => missing
  | expr x => expr x.bare
  | assign name value => assign name value.bare
  | indexAssign array index value => indexAssign array.bare index.bare value.bare
  | ifElse cond thenBody elseBody =>
    ifElse cond.bare (Stmt.listBare thenBody) (Stmt.listBare elseBody)
  | whileDo cond body => whileDo cond.bare (Stmt.listBare body)

/-- Statements without the types on their nodes. -/
def Stmt.listBare : List Stmt → List Stmt
  | [] => []
  | s :: rest => s.bare :: Stmt.listBare rest

end

theorem Expr.listBare_eq (es : List Expr) : Expr.listBare es = es.map Expr.bare := by
  induction es with
  | nil => rfl
  | cons e rest ih => rw [Expr.listBare, ih, List.map_cons]

/-! ## Names -/

mutual

/-- The variables that an expression reads. -/
def Expr.names : Expr → List String
  | missing | int .. | bool .. => []
  | var _ name => [name]
  | unary _ _ x => x.names
  | binary _ _ left right => left.names ++ right.names
  | call _ _ args => Expr.listNames args
  | arrayLit _ _ elems => Expr.listNames elems
  | arrayFill _ length fill => length.names ++ fill.names
  | index _ array i => array.names ++ i.names

/-- The variables that expressions read. -/
def Expr.listNames : List Expr → List String
  | [] => []
  | e :: rest => e.names ++ Expr.listNames rest

end

mutual

/-- The variables that a statement reads or assigns to. -/
def Stmt.names : Stmt → List String
  | missing => []
  | expr x => x.names
  | assign name value => name :: value.names
  | indexAssign array index value => array.names ++ index.names ++ value.names
  | ifElse cond thenBody elseBody =>
    cond.names ++ Stmt.listNames thenBody ++ Stmt.listNames elseBody
  | whileDo cond body => cond.names ++ Stmt.listNames body

/-- The variables that statements read or assign to. -/
def Stmt.listNames : List Stmt → List String
  | [] => []
  | s :: rest => s.names ++ Stmt.listNames rest

end

theorem Expr.listNames_eq (es : List Expr) : Expr.listNames es = es.flatMap Expr.names :=
  eq_flatMap rfl (fun _ _ => rfl) es

theorem Stmt.listNames_eq (ss : List Stmt) : Stmt.listNames ss = ss.flatMap Stmt.names :=
  eq_flatMap rfl (fun _ _ => rfl) ss

theorem Expr.mem_listNames {x : String} {es : List Expr} :
    x ∈ Expr.listNames es ↔ ∃ e ∈ es, x ∈ e.names := by
  rw [Expr.listNames_eq, List.mem_flatMap]

theorem Stmt.mem_listNames {x : String} {ss : List Stmt} :
    x ∈ Stmt.listNames ss ↔ ∃ s ∈ ss, x ∈ s.names := by
  rw [Stmt.listNames_eq, List.mem_flatMap]

/-! ## Nodes and assignments -/

mutual

/-- The nodes of an expression: the expression and all expressions in it. -/
def Expr.nodes : Expr → List Expr
  | unary ty op x => unary ty op x :: x.nodes
  | binary ty op left right => binary ty op left right :: (left.nodes ++ right.nodes)
  | call ty name args => call ty name args :: Expr.listNodes args
  | arrayLit ty elemTy elems => arrayLit ty elemTy elems :: Expr.listNodes elems
  | arrayFill ty length fill => arrayFill ty length fill :: (length.nodes ++ fill.nodes)
  | index ty array i => index ty array i :: (array.nodes ++ i.nodes)
  | e => [e]

/-- The nodes of expressions. -/
def Expr.listNodes : List Expr → List Expr
  | [] => []
  | e :: rest => e.nodes ++ Expr.listNodes rest

end

mutual

/-- The nodes of all expressions in a statement. -/
def Stmt.nodes : Stmt → List Expr
  | missing => []
  | expr x => x.nodes
  | assign _ value => value.nodes
  | indexAssign array index value => array.nodes ++ index.nodes ++ value.nodes
  | ifElse cond thenBody elseBody =>
    cond.nodes ++ Stmt.listNodes thenBody ++ Stmt.listNodes elseBody
  | whileDo cond body => cond.nodes ++ Stmt.listNodes body

/-- The nodes of all expressions in statements. -/
def Stmt.listNodes : List Stmt → List Expr
  | [] => []
  | s :: rest => s.nodes ++ Stmt.listNodes rest

end

mutual

/-- The assignments in a statement: the variables with the expressions assigned to them. -/
def Stmt.assignments : Stmt → List (String × Expr)
  | missing | expr _ | indexAssign .. => []
  | assign name value => [(name, value)]
  | ifElse _ thenBody elseBody => Stmt.listAssignments thenBody ++ Stmt.listAssignments elseBody
  | whileDo _ body => Stmt.listAssignments body

/-- The assignments in statements. -/
def Stmt.listAssignments : List Stmt → List (String × Expr)
  | [] => []
  | s :: rest => s.assignments ++ Stmt.listAssignments rest

end

/-- The variables that statements assign to. -/
def Stmt.listTargets (ss : List Stmt) : List String := (Stmt.listAssignments ss).map Prod.fst

theorem Expr.listNodes_eq (es : List Expr) : Expr.listNodes es = es.flatMap Expr.nodes :=
  eq_flatMap rfl (fun _ _ => rfl) es

theorem Stmt.listNodes_eq (ss : List Stmt) : Stmt.listNodes ss = ss.flatMap Stmt.nodes :=
  eq_flatMap rfl (fun _ _ => rfl) ss

theorem Stmt.listAssignments_eq (ss : List Stmt) :
    Stmt.listAssignments ss = ss.flatMap Stmt.assignments :=
  eq_flatMap rfl (fun _ _ => rfl) ss

theorem Expr.mem_listNodes {x : Expr} {es : List Expr} :
    x ∈ Expr.listNodes es ↔ ∃ e ∈ es, x ∈ e.nodes := by
  rw [Expr.listNodes_eq, List.mem_flatMap]

theorem Stmt.mem_listNodes {x : Expr} {ss : List Stmt} :
    x ∈ Stmt.listNodes ss ↔ ∃ s ∈ ss, x ∈ s.nodes := by
  rw [Stmt.listNodes_eq, List.mem_flatMap]

theorem Stmt.mem_listAssignments {x : String × Expr} {ss : List Stmt} :
    x ∈ Stmt.listAssignments ss ↔ ∃ s ∈ ss, x ∈ s.assignments := by
  rw [Stmt.listAssignments_eq, List.mem_flatMap]

/-! ## Lengths of lists -/

mutual

/-- The lengths of the arrays that are written out in an expression. -/
def Expr.lengths : Expr → List Nat
  | missing | int .. | bool .. | var .. => []
  | unary _ _ x => x.lengths
  | binary _ _ left right => left.lengths ++ right.lengths
  | call _ _ args => Expr.listLengths args
  | arrayLit _ _ elems => elems.length :: Expr.listLengths elems
  | arrayFill _ length fill => length.lengths ++ fill.lengths
  | index _ array i => array.lengths ++ i.lengths

/-- The lengths of the arrays that are written out in expressions. -/
def Expr.listLengths : List Expr → List Nat
  | [] => []
  | e :: rest => e.lengths ++ Expr.listLengths rest

end

mutual

/-- The lengths of the arrays that are written out in a statement. -/
def Stmt.lengths : Stmt → List Nat
  | missing => []
  | expr x => x.lengths
  | assign _ value => value.lengths
  | indexAssign array index value => array.lengths ++ index.lengths ++ value.lengths
  | ifElse cond thenBody elseBody =>
    cond.lengths ++ Stmt.listLengths thenBody ++ Stmt.listLengths elseBody
  | whileDo cond body => cond.lengths ++ Stmt.listLengths body

/-- The lengths of the arrays that are written out in statements. -/
def Stmt.listLengths : List Stmt → List Nat
  | [] => []
  | s :: rest => s.lengths ++ Stmt.listLengths rest

end

theorem Expr.listLengths_eq (es : List Expr) : Expr.listLengths es = es.flatMap Expr.lengths :=
  eq_flatMap rfl (fun _ _ => rfl) es

theorem Stmt.listLengths_eq (ss : List Stmt) : Stmt.listLengths ss = ss.flatMap Stmt.lengths :=
  eq_flatMap rfl (fun _ _ => rfl) ss

theorem Expr.listLengths_map {f : Expr → Expr} {es : List Expr}
    (h : ∀ e ∈ es, (f e).lengths = e.lengths) :
    Expr.listLengths (es.map f) = Expr.listLengths es := by
  induction es with
  | nil => rfl
  | cons e rest ih =>
      obtain ⟨he, hrest⟩ := List.forall_mem_cons.mp h
      rw [List.map_cons, Expr.listLengths, Expr.listLengths, he, ih hrest]

@[simp] theorem Expr.lengths_bare (e : Expr) : e.bare.lengths = e.lengths := by
  induction e with
  | missing | int | bool | var => rfl
  | unary ty op x ih => exact ih
  | binary ty op l r ihl ihr =>
      rw [Expr.bare, Expr.lengths, Expr.lengths, ihl, ihr]
  | call ty name args ih =>
      rw [Expr.bare, Expr.lengths, Expr.lengths, Expr.listBare_eq, Expr.listLengths_map ih]
  | arrayLit ty elemTy elems ih =>
      rw [Expr.bare, Expr.lengths, Expr.lengths, Expr.listBare_eq, Expr.listLengths_map ih,
        List.length_map]
  | arrayFill ty n v ihn ihv =>
      rw [Expr.bare, Expr.lengths, Expr.lengths, ihn, ihv]
  | index ty a i iha ihi =>
      rw [Expr.bare, Expr.lengths, Expr.lengths, iha, ihi]

theorem Stmt.listLengths_listBare {ss : List Stmt} (h : ∀ s ∈ ss, s.bare.lengths = s.lengths) :
    Stmt.listLengths (Stmt.listBare ss) = Stmt.listLengths ss := by
  induction ss with
  | nil => rfl
  | cons s rest ih =>
      obtain ⟨hs, hrest⟩ := List.forall_mem_cons.mp h
      rw [Stmt.listBare, Stmt.listLengths, Stmt.listLengths, hs, ih hrest]

@[simp] theorem Stmt.lengths_bare (s : Stmt) : s.bare.lengths = s.lengths := by
  induction s with
  | missing => rfl
  | expr | assign | indexAssign => simp [Stmt.bare, Stmt.lengths]
  | ifElse cond thenBody elseBody ihthen ihelse =>
      simp [Stmt.bare, Stmt.lengths, Stmt.listLengths_listBare ihthen,
        Stmt.listLengths_listBare ihelse]
  | whileDo cond body ih =>
      simp [Stmt.bare, Stmt.lengths, Stmt.listLengths_listBare ih]

/-- All lengths are signed 64-bit numbers, as those of lists in memory are. -/
def Countable (lengths : List Nat) : Prop := ∀ n ∈ lengths, (n : Int) ≤ Int64.maxValue.toInt

instance (lengths : List Nat) : Decidable (Countable lengths) :=
  inferInstanceAs (Decidable (∀ n ∈ lengths, _))

theorem countable_append {lengths lengths' : List Nat} :
    Countable (lengths ++ lengths') ↔ Countable lengths ∧ Countable lengths' :=
  List.forall_mem_append

theorem countable_nil : Countable [] := List.forall_mem_nil _

theorem countable_cons {n : Nat} {lengths : List Nat} :
    Countable (n :: lengths) ↔ (n : Int) ≤ Int64.maxValue.toInt ∧ Countable lengths :=
  List.forall_mem_cons

theorem countable_flatMap {α : Type} {f : α → List Nat} {as : List α} :
    Countable (as.flatMap f) ↔ ∀ a ∈ as, Countable (f a) :=
  List.forall_mem_flatMap

theorem Countable.of_mem_exprs {es : List Expr} (h : Countable (Expr.listLengths es)) {e : Expr}
    (he : e ∈ es) : Countable e.lengths := by
  rw [Expr.listLengths_eq, countable_flatMap] at h
  exact h e he

theorem Countable.of_mem_stmts {ss : List Stmt} (h : Countable (Stmt.listLengths ss)) {s : Stmt}
    (hs : s ∈ ss) : Countable s.lengths := by
  rw [Stmt.listLengths_eq, countable_flatMap] at h
  exact h s hs

/-! ## Normal form -/

mutual

/-- Every operand of an array operation in an expression is a literal or a variable. -/
def Expr.isNormal : Expr → Bool
  | missing | int .. | bool .. | var .. => true
  | unary _ _ x => x.isNormal
  | binary _ _ left right => left.isNormal && right.isNormal
  | call _ _ args => Expr.listNormal args
  | arrayLit _ _ elems => elems.all Expr.isAtomic
  | arrayFill _ length fill => length.isAtomic && fill.isAtomic
  | index _ array i => array.isAtomic && i.isAtomic

/-- The expressions are in normal form. -/
def Expr.listNormal : List Expr → Bool
  | [] => true
  | e :: rest => e.isNormal && Expr.listNormal rest

end

mutual

/-- Every operand of an array operation in a statement is a literal or a variable. -/
def Stmt.isNormal : Stmt → Bool
  | missing => true
  | expr x => x.isNormal
  | assign _ value => value.isNormal
  | indexAssign array index value => array.isAtomic && index.isAtomic && value.isNormal
  | ifElse cond thenBody elseBody =>
    cond.isNormal && Stmt.listNormal thenBody && Stmt.listNormal elseBody
  | whileDo cond body => cond.isNormal && Stmt.listNormal body

/-- The statements are in normal form. -/
def Stmt.listNormal : List Stmt → Bool
  | [] => true
  | s :: rest => s.isNormal && Stmt.listNormal rest

end

mutual

/-- A condition holds of a statement and of all statements in it. -/
def Stmt.every (p : Stmt → Bool) : Stmt → Bool
  | ifElse cond thenBody elseBody =>
    p (ifElse cond thenBody elseBody) && Stmt.listEvery p thenBody && Stmt.listEvery p elseBody
  | whileDo cond body => p (whileDo cond body) && Stmt.listEvery p body
  | s => p s

/-- A condition holds of statements and of all statements in them. -/
def Stmt.listEvery (p : Stmt → Bool) : List Stmt → Bool
  | [] => true
  | s :: rest => s.every p && Stmt.listEvery p rest

end

/-- If the statement stores a value in an array, the value is in normal form. -/
def Stmt.storesNormal : Stmt → Bool
  | indexAssign _ _ value => value.isNormal
  | _ => true

/-- If the statement is a loop, its condition is in normal form. -/
def Stmt.testsNormal : Stmt → Bool
  | whileDo cond _ => cond.isNormal
  | _ => true

/-- The statement is not an expression that stands alone. -/
def Stmt.isSilent : Stmt → Bool
  | expr _ => false
  | _ => true

theorem Expr.isNormal_of_isAtomic {e : Expr} (h : e.isAtomic = true) : e.isNormal = true := by
  cases e <;> simp_all [Expr.isAtomic, Expr.isNormal]

theorem Expr.listNormal_eq (es : List Expr) : Expr.listNormal es = es.all Expr.isNormal :=
  eq_all rfl (fun _ _ => rfl) es

theorem Expr.listNormal_iff {es : List Expr} :
    Expr.listNormal es = true ↔ ∀ e ∈ es, e.isNormal = true := by
  rw [Expr.listNormal_eq, List.all_eq_true]

theorem Stmt.listNormal_eq (ss : List Stmt) : Stmt.listNormal ss = ss.all Stmt.isNormal :=
  eq_all rfl (fun _ _ => rfl) ss

theorem Stmt.listNormal_iff {ss : List Stmt} :
    Stmt.listNormal ss = true ↔ ∀ s ∈ ss, s.isNormal = true := by
  rw [Stmt.listNormal_eq, List.all_eq_true]

theorem Stmt.listNormal_append {ss ss' : List Stmt} :
    Stmt.listNormal (ss ++ ss') = true ↔
      Stmt.listNormal ss = true ∧ Stmt.listNormal ss' = true :=
  append_of_eq_all Stmt.listNormal_eq

theorem Stmt.listEvery_eq (p : Stmt → Bool) (ss : List Stmt) :
    Stmt.listEvery p ss = ss.all (Stmt.every p) :=
  eq_all rfl (fun _ _ => rfl) ss

theorem Stmt.listEvery_append {p : Stmt → Bool} {ss ss' : List Stmt} :
    Stmt.listEvery p (ss ++ ss') = true ↔
      Stmt.listEvery p ss = true ∧ Stmt.listEvery p ss' = true :=
  append_of_eq_all (Stmt.listEvery_eq p)

end ArrayLang.Source
