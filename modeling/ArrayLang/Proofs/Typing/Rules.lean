import ArrayLang.Proofs.Source.Syntax
import ArrayLang.Layout

/-!
# Typing rules

A program with types on its nodes is well typed in an environment that gives the types of all its
variables.  The rules do not look at the order of statements: whether a variable is assigned before
it is used is another matter.
-/

namespace ArrayLang.Typing

open Source

/-- A type of values. -/
inductive IsValue : Ty → Prop
  | int : IsValue .int
  | bool : IsValue .bool
  | array {elem : Ty} : IsValue elem → IsValue (.array elem)

/-- An expression of a tier has a type, and its nodes carry their types. -/
inductive HasType (tier : Tier) (env : Env) : Expr → Ty → Prop
  | int {value : Int64} : tier.admits .loop = true → HasType tier env (.int .int value) .int
  | bool {value : Bool} : tier.admits .loop = true → HasType tier env (.bool .bool value) .bool
  | var {name : String} {ty : Ty} :
      tier.admits .loop = true → env.find? name = some ty → IsValue ty →
      HasType tier env (.var ty name) ty
  | neg {x : Expr} : HasType tier env x .int → HasType tier env (.unary .int .neg x) .int
  | not {x : Expr} : HasType tier env x .bool → HasType tier env (.unary .bool .not x) .bool
  | arith {op : BinaryOp} {left right : Expr} :
      op ∈ [.add, .sub, .mul] → HasType tier env left .int → HasType tier env right .int →
      HasType tier env (.binary .int op left right) .int
  | order {op : BinaryOp} {left right : Expr} :
      op ∈ [.lt, .le, .gt, .ge] → HasType tier env left .int → HasType tier env right .int →
      HasType tier env (.binary .bool op left right) .bool
  | equality {op : BinaryOp} {ty : Ty} {left right : Expr} :
      op ∈ [.eq, .ne] → ty ∈ [.int, .bool] → HasType tier env left ty → HasType tier env right ty →
      HasType tier env (.binary .bool op left right) .bool
  | logic {op : BinaryOp} {left right : Expr} :
      op ∈ [.and, .or] → HasType tier env left .bool → HasType tier env right .bool →
      HasType tier env (.binary .bool op left right) .bool
  | identity {elem elem' : Ty} {left right : Expr} :
      HasType tier env left (.array elem) → HasType tier env right (.array elem') →
      HasType tier env (.binary .bool .is left right) .bool
  | print {x : Expr} {ty : Ty} :
      HasType tier env x ty → IsValue ty →
      HasType tier env (.call .void Builtin.print.text [x]) .void
  | input :
      tier.admits .loop = true → HasType tier env (.call .int Builtin.inputInt.text []) .int
  | len {x : Expr} {elem : Ty} :
      tier.admits .array = true → HasType tier env x (.array elem) →
      HasType tier env (.call .int Builtin.len.text [x]) .int
  | arrayLit {elems : List Expr} {elem : Ty} :
      tier.admits .array = true → IsValue elem → elems ≠ [] →
      (∀ e ∈ elems, HasType tier env e elem) →
      HasType tier env (.arrayLit (.array elem) elem elems) (.array elem)
  | arrayFill {length fill : Expr} {elem : Ty} :
      tier.admits .array = true → IsValue elem → HasType tier env length .int →
      HasType tier env fill elem →
      HasType tier env (.arrayFill (.array elem) length fill) (.array elem)
  | index {array index : Expr} {elem : Ty} :
      tier.admits .array = true → HasType tier env array (.array elem) →
      HasType tier env index .int → HasType tier env (.index elem array index) elem

/-- A statement of a tier is well typed. -/
inductive StmtTyped (tier : Tier) (env : Env) : Stmt → Prop
  | expr {x : Expr} {ty : Ty} : HasType tier env x ty → StmtTyped tier env (.expr x)
  | assign {name : String} {value : Expr} {ty : Ty} :
      env.find? name = some ty → IsValue ty → HasType tier env value ty →
      StmtTyped tier env (.assign name value)
  | indexAssign {array index value : Expr} {elem : Ty} :
      tier.admits .array = true → HasType tier env array (.array elem) →
      HasType tier env index .int → HasType tier env value elem →
      StmtTyped tier env (.indexAssign array index value)
  | ifElse {cond : Expr} {thenBody elseBody : List Stmt} :
      HasType tier env cond .bool → (∀ s ∈ thenBody, StmtTyped tier env s) →
      (∀ s ∈ elseBody, StmtTyped tier env s) →
      StmtTyped tier env (.ifElse cond thenBody elseBody)
  | whileDo {cond : Expr} {body : List Stmt} :
      HasType tier env cond .bool → (∀ s ∈ body, StmtTyped tier env s) →
      StmtTyped tier env (.whileDo cond body)

variable {tier : Tier} {env : Env} {e : Expr} {ty : Ty}

theorem Tier.admits_loop_of_array (h : tier.admits .array = true) :
    tier.admits .loop = true := by
  simp only [Tier.admits, decide_eq_true_eq] at h ⊢
  exact Int.le_trans (by decide) h

/-! ## Types of values -/

theorem IsValue.isValid (h : IsValue ty) : ty.isValid = true := by
  cases h <;> rfl

theorem IsValue.ne_void (h : IsValue ty) : ty ≠ .void := by
  cases h <;> simp

theorem IsValue.of_array {elem : Ty} (h : IsValue (.array elem)) : IsValue elem := by
  cases h with
  | array helem => exact helem

/-! ## Types of expressions -/

theorem HasType.ty_eq (h : HasType tier env e ty) : e.ty = ty := by
  cases h <;> rfl

/-- An expression has a type of values, or it is a call that produces none. -/
theorem HasType.isValue_or_void (h : HasType tier env e ty) : IsValue ty ∨ ty = .void := by
  induction h with
  | int | neg | arith | input | len => exact Or.inl .int
  | bool | not | order | equality | logic | identity => exact Or.inl .bool
  | var _ _ hvalue => exact Or.inl hvalue
  | print => exact Or.inr rfl
  | arrayLit _ helem => exact Or.inl (.array helem)
  | arrayFill _ helem => exact Or.inl (.array helem)
  | index _ _ _ ih _ =>
      rcases ih with harray | hvoid
      · exact Or.inl harray.of_array
      · exact absurd hvoid (by simp)

theorem HasType.logic_inv {ty' : Ty} {op : BinaryOp} {left right : Expr}
    (h : HasType tier env (.binary ty' op left right) ty) (hop : op = .and ∨ op = .or) :
    ty' = .bool ∧ ty = .bool ∧ HasType tier env left .bool ∧ HasType tier env right .bool := by
  cases h with
  | logic _ hleft hright => exact ⟨rfl, rfl, hleft, hright⟩
  | arith hmem | order hmem | equality hmem => rcases hop with rfl | rfl <;> simp at hmem
  | identity => simp at hop

theorem HasType.elem_isValue {elem : Ty} (h : HasType tier env e (.array elem)) :
    IsValue elem := by
  rcases h.isValue_or_void with harray | hvoid
  · exact harray.of_array
  · exact absurd hvoid (by simp)

theorem HasType.isValid (h : HasType tier env e ty) : e.ty.isValid = true := by
  rw [h.ty_eq]
  rcases h.isValue_or_void with hvalue | rfl
  · exact hvalue.isValid
  · rfl

theorem HasType.admits_loop (h : HasType tier env e ty) : tier.admits .loop = true := by
  induction h with
  | int hloop | bool hloop | var hloop | input hloop => exact hloop
  | neg _ ih | not _ ih => exact ih
  | arith _ _ _ ih _ | order _ _ _ ih _ | logic _ _ _ ih _ => exact ih
  | equality _ _ _ _ ih _ => exact ih
  | identity _ _ ih _ => exact ih
  | print _ _ ih => exact ih
  | len harray | arrayLit harray | arrayFill harray | index harray =>
      exact Tier.admits_loop_of_array harray

/-- The node of a well-typed expression is part of the language of its tier. -/
theorem HasType.admits (h : HasType tier env e ty) : tier.admits e.tier = true := by
  cases h with
  | arrayLit harray | arrayFill harray | index harray => exact harray
  | int hloop | bool hloop | var hloop | input hloop => exact hloop
  | neg hx | not hx | print hx => exact hx.admits_loop
  | arith _ hx | order _ hx | equality _ _ hx | logic _ hx => exact hx.admits_loop
  | identity hx => exact hx.admits_loop
  | len harray => exact Tier.admits_loop_of_array harray

/-! ## Names of variables -/

theorem find?_of_mem_names (h : HasType tier env e ty) :
    ∀ x ∈ e.names, ∃ ty, env.find? x = some ty := by
  induction h with
  | int | bool => simp [Expr.names]
  | var _ hfind _ =>
      simp only [Expr.names, List.mem_singleton, forall_eq]
      exact ⟨_, hfind⟩
  | neg _ ih | not _ ih => exact ih
  | arith _ _ _ ihl ihr | order _ _ _ ihl ihr | logic _ _ _ ihl ihr =>
      exact fun x hx => (List.mem_append.mp hx).elim (ihl x) (ihr x)
  | equality _ _ _ _ ihl ihr | identity _ _ ihl ihr =>
      exact fun x hx => (List.mem_append.mp hx).elim (ihl x) (ihr x)
  | print _ _ ih | len _ _ ih => simpa [Expr.names, Expr.listNames] using ih
  | input => simp [Expr.names, Expr.listNames]
  | arrayLit _ _ _ _ ih =>
      intro x hx
      obtain ⟨e, he, hx⟩ := Expr.mem_listNames.mp hx
      exact ih e he x hx
  | arrayFill _ _ _ _ ihn ihv =>
      exact fun x hx => (List.mem_append.mp hx).elim (ihn x) (ihv x)
  | index _ _ _ iha ihi => exact fun x hx => (List.mem_append.mp hx).elim (iha x) (ihi x)

theorem find?_of_mem_stmtNames {s : Stmt} (h : StmtTyped tier env s) :
    ∀ x ∈ s.names, ∃ ty, env.find? x = some ty := by
  induction h with
  | expr hx => exact find?_of_mem_names hx
  | assign hfind _ hv =>
      intro x hx
      rcases List.mem_cons.mp hx with rfl | hx'
      · exact ⟨_, hfind⟩
      · exact find?_of_mem_names hv x hx'
  | indexAssign _ ha hi hv =>
      intro x hx
      simp only [Stmt.names, List.mem_append] at hx
      rcases hx with (hx | hx) | hx
      · exact find?_of_mem_names ha x hx
      · exact find?_of_mem_names hi x hx
      · exact find?_of_mem_names hv x hx
  | ifElse hcond _ _ ihthen ihelse =>
      intro x hx
      simp only [Stmt.names, List.mem_append, Stmt.mem_listNames] at hx
      rcases hx with (hx | ⟨s, hs, hx⟩) | ⟨s, hs, hx⟩
      · exact find?_of_mem_names hcond x hx
      · exact ihthen s hs x hx
      · exact ihelse s hs x hx
  | whileDo hcond _ ih =>
      intro x hx
      simp only [Stmt.names, List.mem_append, Stmt.mem_listNames] at hx
      rcases hx with hx | ⟨s, hs, hx⟩
      · exact find?_of_mem_names hcond x hx
      · exact ih s hs x hx

end ArrayLang.Typing
