import ArrayLang.Proofs.NormalForm.Correct
import ArrayLang.Proofs.Reference.Passes

/-!
# Expressions that a run comes to

A run meets an expression in the world in which it starts to evaluate it.  It leads to the
expression from there on.

Whatever is met in a program is a part of it: it has a type, and it is in normal form if the program
is.
-/

namespace ArrayLang.NormalForm

open Source Machine Emit Typing Reference

/-! ## Expressions -/

/-- The operands that an operation evaluates in any case, from first to last. -/
def operands : Expr → List Expr
  | .missing | .int .. | .bool .. | .var .. => []
  | .unary _ _ x => [x]
  | .binary _ .and left _ | .binary _ .or left _ => [left]
  | .binary _ _ left right => [left, right]
  | .call _ _ args => args
  | .arrayLit _ _ elems => elems
  | .arrayFill _ length fill => [length, fill]
  | .index _ array index => [array, index]

/-- The length and the type of the elements that an initialiser in normal form asks for, if the
expression is one. -/
def asked? (vars : String → UInt64) : Expr → Option (UInt64 × Ty)
  | .arrayLit _ elem elems => some ((Int64.ofNat elems.length).toUInt64, elem)
  | .arrayFill ty length _ => some (atomValue vars length, elemOf ty)
  | _ => none

/-- Evaluating an expression from a world comes to evaluating a part of it from another world. -/
inductive Meets (t : Target) : Expr → World → Expr → World → Prop
  | here (e : Expr) (w : World) : Meets t e w e w
  | operand {e x e' : Expr} {before after : List Expr} {values : List UInt64} {w w₁ w' : World} :
      operands e = before ++ x :: after → evalExprs t before w = .ok values w₁ →
      Meets t x w₁ e' w' → Meets t e w e' w'
  | right {ty : Ty} {op : BinaryOp} {left right e' : Expr} {value : UInt64} {w w₁ w' : World} :
      op = .and ∨ op = .or → evalExpr t left w = .ok value w₁ → needed op value = true →
      Meets t right (w₁.note (.choice op right value)) e' w' →
      Meets t (.binary ty op left right) w e' w'

/-- Running a statement comes to evaluating a part of an expression that is not in its body. -/
inductive StmtMeets (t : Target) : Stmt → World → Expr → World → Prop
  | expr {x e : Expr} {w w' : World} : Meets t x w e w' → StmtMeets t (.expr x) w e w'
  | assign {name : String} {value e : Expr} {w w' : World} :
      Meets t value w e w' → StmtMeets t (.assign name value) w e w'
  | place {array index value x e : Expr} {before after : List Expr} {values : List UInt64}
      {w w₁ w' : World} :
      [array, index] = before ++ x :: after → evalExprs t before w = .ok values w₁ →
      Meets t x w₁ e w' → StmtMeets t (.indexAssign array index value) w e w'
  | stored {array index value e : Expr} {a i : UInt64} {address : UInt32} {w w₁ w₂ w' : World} :
      evalExprs t [array, index] w = .ok [a, i] w₁ →
      locate t .write (elemOf array.ty) a i w₁ = .ok address w₂ → Meets t value w₂ e w' →
      StmtMeets t (.indexAssign array index value) w e w'
  | ifElse {cond e : Expr} {thenBody elseBody : List Stmt} {w w' : World} :
      Meets t cond w e w' → StmtMeets t (.ifElse cond thenBody elseBody) w e w'
  | whileDo {cond e : Expr} {body : List Stmt} {w w₁ w' : World} :
      Iterates t cond body w w₁ → w₁.fuel ≠ 0 →
      Meets t cond { w₁ with fuel := w₁.fuel - 1 } e w' → StmtMeets t (.whileDo cond body) w e w'

/-- Running statements from a world comes to evaluating an expression from another world. -/
def RunMeets (t : Target) (stmts : List Stmt) (w : World) (e : Expr) (w' : World) : Prop :=
  ∃ s rest w₁, Passes t stmts w (s :: rest) w₁ ∧ StmtMeets t s w₁ e w'

section

variable {t : Target} {w w₁ w' : World} {e e' x : Expr}

theorem operands_logic {ty : Ty} {op : BinaryOp} {l r : Expr} (hop : op = .and ∨ op = .or) :
    operands (.binary ty op l r) = [l] := by
  rcases hop with rfl | rfl <;> rfl

theorem operands_strict {ty : Ty} {op : BinaryOp} {l r : Expr} (hop : ¬(op = .and ∨ op = .or)) :
    operands (.binary ty op l r) = [l, r] := by
  cases op <;> first | rfl | exact absurd (by simp) hop

/-- An operation evaluates its operands first. -/
theorem exists_evalExpr_eq (t : Target) (e : Expr) :
    ∃ f : List UInt64 → Eval UInt64, (∀ values, Runs True True (f values)) ∧
      evalExpr t e = evalExprs t (operands e) >>= f := by
  have hnode {array : Bool} {e : Expr} (h : SameNode array e (operands e) e (operands e)) :
      ∃ f : List UInt64 → Eval UInt64, (∀ values, Runs True True (f values)) ∧
        evalExpr t e = evalExprs t (operands e) >>= f := ⟨operate t e, inferInstance, h.eval.1⟩
  cases e with
  | missing | int | bool | var =>
      exact ⟨fun _ => evalExpr t _, inferInstance, by rw [operands, evalExprs, pure_bind]⟩
  | unary => exact hnode .unary
  | call => exact hnode .call
  | arrayLit => exact hnode .arrayLit
  | arrayFill => exact hnode .arrayFill
  | index => exact hnode .index
  | binary ty op l r =>
      by_cases hop : op = .and ∨ op = .or
      · refine ⟨fun values => do
          note (.choice op r (values.headD 0))
          if needed op (values.headD 0) then evalExpr t r
          else return ofBool (truth (values.headD 0)), inferInstance, ?_⟩
        rw [operands_logic hop, evalExprs_singleton, evalExpr_logic hop, bind_assoc]
        rfl
      · obtain ⟨hand, hor⟩ := not_or.mp hop
        apply hnode
        rw [operands_strict hop]
        exact .binary hand hor

theorem Meets.leads (h : Meets t e w e' w') : Leads (evalExpr t e) w (evalExpr t e') w' := by
  induction h with
  | here e w => exact .refl _ w
  | @operand e _ _ _ _ _ _ _ _ hoperands hbefore _ ih =>
      obtain ⟨f, hf, heval⟩ := exists_evalExpr_eq t e
      rw [heval, hoperands]
      exact ((leads_operand hbefore).bind hf).trans ih
  | @right _ op _ r _ value _ w₁ _ hop hleft hneeded _ ih =>
      rw [evalExpr_logic hop]
      refine (Leads.of_ok hleft _).trans ?_
      refine (Leads.of_ok (run_note w₁ (.choice op r value)) _).trans ?_
      rw [if_pos hneeded]
      exact ih

theorem leads_holds (h : Meets t x w e w') : Leads (holds t x) w (evalExpr t e) w' := by
  rw [holds]
  exact h.leads.bind inferInstance

theorem StmtMeets.leads {s : Stmt} (h : StmtMeets t s w e w') :
    Leads (runStmt t s) w (evalExpr t e) w' := by
  cases h with
  | expr h | assign h =>
      rw [runStmt]
      exact h.leads.bind inferInstance
  | ifElse h =>
      rw [runStmt]
      exact (leads_holds h).bind inferInstance
  | whileDo hiter hfuel h =>
      exact (hiter.leads hfuel).trans ((leads_holds h).bind inferInstance)
  | place hparts hbefore h =>
      rw [runStmt_indexAssign, hparts]
      exact ((leads_operand hbefore).bind inferInstance).trans h.leads
  | stored hplace hlocate h =>
      rw [runStmt_indexAssign]
      refine (Leads.of_ok hplace _).trans ?_
      exact (Leads.of_ok hlocate _).trans (h.leads.bind inferInstance)

theorem RunMeets.leads {stmts : List Stmt} (h : RunMeets t stmts w e w') :
    Leads (runStmts t stmts) w (evalExpr t e) w' := by
  obtain ⟨s, rest, w₁, hpasses, hs⟩ := h
  refine hpasses.leads.trans ?_
  rw [runStmts]
  exact hs.leads.bind inferInstance

end

/-! ## Parts of programs -/

/-- An expression as there are in the normal form of a checked program. -/
structure Formed (tier : Tier) (env : Env) (e : Expr) : Prop where
  typed : ∃ ty, HasType tier env e ty
  normal : e.isNormal = true
  countable : Countable e.lengths

/-- A statement as there are in the normal form of a checked program. -/
structure StmtFormed (tier : Tier) (env : Env) (s : Stmt) : Prop where
  typed : StmtTyped tier env s
  normal : s.isNormal = true
  countable : Countable s.lengths

section

variable {tier : Tier} {env : Env} {t : Target} {w w' : World} {e e' : Expr}

theorem formed_atom {ty : Ty} (h : HasType tier env e ty) (hatomic : e.isAtomic = true) :
    Formed tier env e := by
  refine ⟨⟨ty, h⟩, Expr.isNormal_of_isAtomic hatomic, ?_⟩
  cases e <;> first | exact countable_nil | exact absurd hatomic (by simp [Expr.isAtomic])

theorem Formed.binary {ty : Ty} {op : BinaryOp} {l r : Expr}
    (h : Formed tier env (.binary ty op l r)) : Formed tier env l ∧ Formed tier env r := by
  obtain ⟨⟨_, htyped⟩, hnormal, hcountable⟩ := h
  obtain ⟨hl, hr⟩ := Bool.and_eq_true_iff.mp hnormal
  obtain ⟨hcl, hcr⟩ := countable_append.mp hcountable
  cases htyped with
  | arith _ hl' hr' | order _ hl' hr' | logic _ hl' hr' | identity hl' hr' | equality _ _ hl' hr' =>
      exact ⟨⟨⟨_, hl'⟩, hl, hcl⟩, ⟨_, hr'⟩, hr, hcr⟩

theorem Formed.unary {ty : Ty} {op : UnaryOp} {x : Expr} (h : Formed tier env (.unary ty op x)) :
    Formed tier env x := by
  obtain ⟨⟨_, htyped⟩, hnormal, hcountable⟩ := h
  cases htyped with
  | neg hx | not hx => exact ⟨⟨_, hx⟩, hnormal, hcountable⟩

theorem Formed.of_mem_args {ty : Ty} {name : String} {args : List Expr}
    (h : Formed tier env (.call ty name args)) {x : Expr} (hx : x ∈ args) : Formed tier env x := by
  obtain ⟨⟨_, htyped⟩, hnormal, hcountable⟩ := h
  refine ⟨?_, Expr.listNormal_iff.mp hnormal x hx, Countable.of_mem_exprs hcountable hx⟩
  cases htyped with
  | input => exact nomatch hx
  | print hy | len _ hy =>
      obtain rfl := List.mem_singleton.mp hx
      exact ⟨_, hy⟩

theorem Formed.of_mem_operands (h : Formed tier env e) {x : Expr} (hx : x ∈ operands e) :
    Formed tier env x := by
  cases e with
  | missing | int | bool | var => exact nomatch hx
  | unary =>
      obtain rfl := List.mem_singleton.mp hx
      exact h.unary
  | binary ty op l r =>
      have hmem : x = l ∨ x = r := by
        cases op <;> simp [operands] at hx <;> tauto
      rcases hmem with rfl | rfl
      · exact h.binary.1
      · exact h.binary.2
  | call => exact h.of_mem_args hx
  | arrayLit =>
      obtain ⟨⟨_, htyped⟩, hnormal, -⟩ := h
      cases htyped with
      | arrayLit _ _ _ helems =>
          exact formed_atom (helems x hx) (List.all_eq_true.mp hnormal x hx)
  | arrayFill =>
      obtain ⟨⟨_, htyped⟩, hnormal, -⟩ := h
      obtain ⟨hlength, hfill⟩ := Bool.and_eq_true_iff.mp hnormal
      cases htyped with
      | arrayFill _ _ hlength' hfill' =>
          rcases List.mem_pair.mp hx with rfl | rfl
          · exact formed_atom hlength' hlength
          · exact formed_atom hfill' hfill
  | index =>
      obtain ⟨⟨_, htyped⟩, hnormal, -⟩ := h
      obtain ⟨harray, hindex⟩ := Bool.and_eq_true_iff.mp hnormal
      cases htyped with
      | index _ harray' hindex' =>
          rcases List.mem_pair.mp hx with rfl | rfl
          · exact formed_atom harray' harray
          · exact formed_atom hindex' hindex

theorem Meets.formed (h : Meets t e w e' w') (he : Formed tier env e) : Formed tier env e' := by
  induction h with
  | here => exact he
  | operand hoperands _ _ ih => exact ih (he.of_mem_operands (by simp [hoperands]))
  | right _ _ _ _ ih => exact ih he.binary.2

theorem StmtFormed.ifElse {cond : Expr} {thenBody elseBody : List Stmt}
    (h : StmtFormed tier env (.ifElse cond thenBody elseBody)) :
    Formed tier env cond ∧ (∀ s ∈ thenBody, StmtFormed tier env s) ∧
      ∀ s ∈ elseBody, StmtFormed tier env s := by
  obtain ⟨htyped, hnormal, hcountable⟩ := h
  obtain ⟨hnormal, helse⟩ := Bool.and_eq_true_iff.mp hnormal
  obtain ⟨hcond, hthen⟩ := Bool.and_eq_true_iff.mp hnormal
  obtain ⟨hcountable, helse'⟩ := countable_append.mp hcountable
  obtain ⟨hcond', hthen'⟩ := countable_append.mp hcountable
  cases htyped with
  | ifElse hcond'' hthen'' helse'' =>
      refine ⟨⟨⟨_, hcond''⟩, hcond, hcond'⟩, fun s hs => ?_, fun s hs => ?_⟩
      · exact ⟨hthen'' s hs, Stmt.listNormal_iff.mp hthen s hs, hthen'.of_mem_stmts hs⟩
      · exact ⟨helse'' s hs, Stmt.listNormal_iff.mp helse s hs, helse'.of_mem_stmts hs⟩

theorem StmtFormed.whileDo {cond : Expr} {body : List Stmt}
    (h : StmtFormed tier env (.whileDo cond body)) :
    Formed tier env cond ∧ ∀ s ∈ body, StmtFormed tier env s := by
  obtain ⟨htyped, hnormal, hcountable⟩ := h
  obtain ⟨hcond, hbody⟩ := Bool.and_eq_true_iff.mp hnormal
  obtain ⟨hcond', hbody'⟩ := countable_append.mp hcountable
  cases htyped with
  | whileDo hcond'' hbody'' =>
      refine ⟨⟨⟨_, hcond''⟩, hcond, hcond'⟩, fun s hs => ?_⟩
      exact ⟨hbody'' s hs, Stmt.listNormal_iff.mp hbody s hs, hbody'.of_mem_stmts hs⟩

theorem StmtFormed.indexAssign {array index value : Expr}
    (h : StmtFormed tier env (.indexAssign array index value)) :
    (∀ x ∈ [array, index], Formed tier env x) ∧ Formed tier env value := by
  obtain ⟨htyped, hnormal, hcountable⟩ := h
  obtain ⟨hplace, hvalue⟩ := Bool.and_eq_true_iff.mp hnormal
  obtain ⟨harray, hindex⟩ := Bool.and_eq_true_iff.mp hplace
  obtain ⟨-, hvalue'⟩ := countable_append.mp hcountable
  cases htyped with
  | indexAssign _ harray' hindex' hvalue'' =>
      refine ⟨?_, ⟨_, hvalue''⟩, hvalue, hvalue'⟩
      simpa using ⟨formed_atom harray' harray, formed_atom hindex' hindex⟩

theorem StmtMeets.formed {s : Stmt} (h : StmtMeets t s w e w') (hs : StmtFormed tier env s) :
    Formed tier env e := by
  cases h with
  | expr h =>
      obtain ⟨htyped, hnormal, hcountable⟩ := hs
      cases htyped with
      | expr hx => exact h.formed ⟨⟨_, hx⟩, hnormal, hcountable⟩
  | assign h =>
      obtain ⟨htyped, hnormal, hcountable⟩ := hs
      cases htyped with
      | assign _ _ hx => exact h.formed ⟨⟨_, hx⟩, hnormal, hcountable⟩
  | place hparts _ h => exact h.formed (hs.indexAssign.1 _ (by simp [hparts]))
  | stored _ _ h => exact h.formed hs.indexAssign.2
  | ifElse h => exact h.formed hs.ifElse.1
  | whileDo _ _ h => exact h.formed hs.whileDo.1

theorem passes_formed {stmts left : List Stmt} (h : Passes t stmts w left w')
    (hstmts : ∀ s ∈ stmts, StmtFormed tier env s) : ∀ s ∈ left, StmtFormed tier env s := by
  induction h with
  | here => exact hstmts
  | after _ _ ih => exact ih (List.forall_mem_cons.mp hstmts).2
  | inThen _ _ ih => exact ih (hstmts _ List.mem_cons_self).ifElse.2.1
  | inElse _ _ ih => exact ih (hstmts _ List.mem_cons_self).ifElse.2.2
  | inLoop _ _ _ _ ih => exact ih (hstmts _ List.mem_cons_self).whileDo.2

/-- What a run meets in a program in normal form is in normal form. -/
theorem RunMeets.formed {stmts : List Stmt} (h : RunMeets t stmts w e w')
    (hstmts : ∀ s ∈ stmts, StmtFormed tier env s) : Formed tier env e := by
  obtain ⟨s, rest, w₁, hpasses, hs⟩ := h
  exact hs.formed (passes_formed hpasses hstmts s List.mem_cons_self)

end

end ArrayLang.NormalForm
