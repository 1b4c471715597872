import ArrayLang.Proofs.Emit.Exprs

/-!
# Programs without arrays

At a tier without arrays, neither the code of a program nor its meaning depends on the target.  The
code does not use the scratch slots.
-/

namespace ArrayLang.Emit

open Source Code Typing

/-- Steps of code generation that are one and the same for all targets with loops, and leave the
scratch slots out of use. -/
structure Uniform {α : Type} (step : Target → Emission α) : Prop where
  same : ∀ t t', t.tier.admits .loop = true → t'.tier.admits .loop = true → step t' = step t
  scratch : ∀ t p a p', (step t).run p = (.ok a, p') → p'.scratch = p.scratch

namespace Uniform

variable {α β : Type}

theorem pure (a : α) : Uniform fun _ => (Pure.pure a : Emission α) where
  same _ _ _ _ := rfl
  scratch := by
    rintro t p a p' ⟨rfl, rfl⟩
    rfl

theorem throw (e : Error) : Uniform fun _ => (MonadExcept.throw e : Emission α) where
  same _ _ _ _ := rfl
  scratch _ _ _ _ h := nomatch h

theorem bind {x : Target → Emission α} {f : Target → α → Emission β} (hx : Uniform x)
    (hf : ∀ a, Uniform fun t => f t a) : Uniform fun t => x t >>= f t := by
  constructor
  · intro t t' ht ht'
    have hsame : f t' = f t := funext fun a => (hf a).same t t' ht ht'
    simp only [hx.same t t' ht ht', hsame]
  · intro t p b p'' hrun
    rw [Emission.run_bind] at hrun
    rcases hfirst : (x t).run p with ⟨answer, p'⟩
    rw [hfirst] at hrun
    cases answer with
    | error e => exact nomatch hrun
    | ok a => exact ((hf a).scratch t p' b p'' hrun).trans (hx.scratch t p a p' hfirst)

end Uniform

/-! ## Single steps -/

theorem uniform_requireTier (what : String) : Uniform fun t => requireTier t what .loop where
  same t t' ht ht' := by
    rw [requireTier, requireTier, if_pos ht, if_pos ht']
  scratch t p a p' h := by
    rw [requireTier] at h
    split at h
    · exact (Uniform.pure ()).scratch t p a p' h
    · exact (Uniform.throw _).scratch t p a p' h

theorem uniform_accept {e : Expr} (h : e.tier = .loop) : Uniform fun t => accept t e := by
  simp only [accept, h]
  split
  · exact (Uniform.throw _).bind fun _ => uniform_requireTier _
  · exact uniform_requireTier _

theorem uniform_freshLabels (kind : String) : Uniform fun _ => freshLabels kind where
  same _ _ _ _ := rfl
  scratch := by
    rintro t p a p' ⟨rfl, rfl⟩
    rfl

theorem uniform_unaryCode (op : UnaryOp) (x : Block) : Uniform fun _ => unaryCode op x := by
  cases op with
  | neg | not => exact .pure _
  | unknown => exact .throw _

theorem uniform_equalityCode (ty : Ty) (op : CompareOp) (left right : Block) :
    Uniform fun _ => equalityCode ty op left right := by
  cases ty with
  | int | bool => exact .pure _
  | _ => exact .throw _

theorem uniform_binaryCode (op : BinaryOp) (ty : Ty) (left right : Block) :
    Uniform fun _ => binaryCode op ty left right := by
  cases op with
  | eq | ne => exact uniform_equalityCode ty _ left right
  | unknown => exact .throw _
  | _ => exact .pure _

theorem uniform_printFunction (ty : Ty) : Uniform fun _ => printFunction ty := by
  cases ty with
  | int | bool | array | bareArray => exact .pure _
  | _ => exact .throw _

theorem uniform_print (x : Expr) (code : Block) :
    Uniform fun t => callCode t Builtin.print.text [x] code :=
  (uniform_printFunction x.ty).bind fun _ => .pure _

/-! ## Code -/

section

variable {tier : Tier} {env : Env} (harray : tier.admits .array = false)
include harray

theorem uniform_expr {e : Expr} {ty : Ty} (h : HasType tier env e ty) :
    Uniform fun t => expr t e := by
  have hunary {ty : Ty} {op : UnaryOp} {x : Expr} (hx : Uniform fun t => expr t x) :
      Uniform fun t => expr t (.unary ty op x) := by
    simp only [expr]
    apply (uniform_accept rfl).bind
    intro _
    exact hx.bind fun code => uniform_unaryCode op code
  have hbinary {ty : Ty} {op : BinaryOp} {left right : Expr} (hl : Uniform fun t => expr t left)
      (hr : Uniform fun t => expr t right) : Uniform fun t => expr t (.binary ty op left right) := by
    simp only [expr]
    apply (uniform_accept rfl).bind
    intro _
    exact hl.bind fun l => hr.bind fun r => uniform_binaryCode op left.ty l r
  induction h with
  | int | bool | var =>
      simp only [expr]
      exact (uniform_accept rfl).bind fun _ => .pure _
  | neg _ ih | not _ ih => exact hunary ih
  | arith _ _ _ ihl ihr | order _ _ _ ihl ihr | logic _ _ _ ihl ihr => exact hbinary ihl ihr
  | equality _ _ _ _ ihl ihr | identity _ _ ihl ihr => exact hbinary ihl ihr
  | print _ _ ih =>
      simp only [expr, exprs]
      apply (uniform_accept rfl).bind
      intro _
      apply Uniform.bind _ fun code => uniform_print _ code
      exact ih.bind fun _ => .pure _
  | input =>
      simp only [expr, exprs]
      apply (uniform_accept rfl).bind
      intro _
      exact (Uniform.pure _).bind fun _ => .pure _
  | len hadmits | arrayLit hadmits | arrayFill hadmits | index hadmits =>
      exact absurd (hadmits.symm.trans harray) (by simp)

omit harray in
theorem uniform_stmts {ss : List Stmt} (h : ∀ s ∈ ss, Uniform fun t => stmt t s) :
    Uniform fun t => stmts t ss := by
  induction ss with
  | nil =>
      simp only [stmts]
      exact .pure _
  | cons s rest ih =>
      obtain ⟨hs, hrest⟩ := List.forall_mem_cons.mp h
      simp only [stmts]
      exact hs.bind fun _ => (ih hrest).bind fun _ => .pure _

/-- The code of a statement without arrays does not depend on the target. -/
theorem uniform_stmt {s : Stmt} (h : StmtTyped tier env s) : Uniform fun t => stmt t s := by
  induction h with
  | expr hx =>
      simp only [stmt]
      apply (uniform_requireTier _).bind
      intro _
      exact (uniform_expr harray hx).bind fun _ => .pure _
  | assign _ _ hv =>
      simp only [stmt]
      apply (uniform_requireTier _).bind
      intro _
      exact (uniform_expr harray hv).bind fun _ => .pure _
  | indexAssign hadmits => exact absurd (hadmits.symm.trans harray) (by simp)
  | ifElse hcond _ _ ihthen ihelse =>
      simp only [stmt]
      apply (uniform_requireTier _).bind
      intro _
      apply (uniform_expr harray hcond).bind
      intro _
      exact (uniform_stmts ihthen).bind fun _ => (uniform_stmts ihelse).bind fun _ => .pure _
  | whileDo hcond _ ih =>
      simp only [stmt]
      apply (uniform_requireTier _).bind
      intro _
      apply (uniform_freshLabels _).bind
      intro _
      exact (uniform_expr harray hcond).bind fun _ => (uniform_stmts ih).bind fun _ => .pure _

end

end ArrayLang.Emit

/-! ## Meaning -/

namespace ArrayLang.Reference

open Source Emit Typing

section

variable {tier : Tier} {env : Env} (harray : tier.admits .array = false) (t t' : Target)
include harray

theorem evalExpr_target {e : Expr} {ty : Ty} (h : HasType tier env e ty) :
    evalExpr t e = evalExpr t' e := by
  induction h with
  | int | bool | var => simp only [evalExpr]
  | neg _ ih | not _ ih => simp only [evalExpr, ih]
  | arith hop _ _ ihl ihr | order hop _ _ ihl ihr =>
      simp only [List.mem_cons, List.not_mem_nil, or_false] at hop
      rcases hop with rfl | rfl | rfl | rfl <;> simp only [evalExpr, ihl, ihr]
  | logic hop _ _ ihl ihr | equality hop _ _ _ ihl ihr =>
      simp only [List.mem_cons, List.not_mem_nil, or_false] at hop
      rcases hop with rfl | rfl <;> simp only [evalExpr, ihl, ihr]
  | identity _ _ ihl ihr => simp only [evalExpr, ihl, ihr]
  | print _ _ ih => simp only [evalExpr, evalExprs, ih]
  | input => simp only [evalExpr, evalExprs]
  | len hadmits | arrayLit hadmits | arrayFill hadmits | index hadmits =>
      exact absurd (hadmits.symm.trans harray) (by simp)

omit harray in
theorem runStmts_target {ss : List Stmt} (h : ∀ s ∈ ss, runStmt t s = runStmt t' s) :
    runStmts t ss = runStmts t' ss := by
  induction ss with
  | nil => simp only [runStmts]
  | cons s rest ih =>
      obtain ⟨hs, hrest⟩ := List.forall_mem_cons.mp h
      simp only [runStmts, hs, ih hrest]

/-- A statement without arrays means the same for all targets. -/
theorem runStmt_target {s : Stmt} (h : StmtTyped tier env s) : runStmt t s = runStmt t' s := by
  induction h with
  | expr hx => simp only [runStmt, evalExpr_target harray t t' hx]
  | assign _ _ hv => simp only [runStmt, evalExpr_target harray t t' hv]
  | indexAssign hadmits => exact absurd (hadmits.symm.trans harray) (by simp)
  | ifElse hcond _ _ ihthen ihelse =>
      simp only [runStmt, holds, evalExpr_target harray t t' hcond, runStmts_target t t' ihthen,
        runStmts_target t t' ihelse]
  | whileDo hcond _ ih =>
      simp only [runStmt, holds, evalExpr_target harray t t' hcond, runStmts_target t t' ih]

end

end ArrayLang.Reference
