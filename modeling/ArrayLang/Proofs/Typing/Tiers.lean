import ArrayLang.Proofs.Typing.Checked

/-!
# Tiers of the language

A larger tier has more nodes, and nothing else in the checker depends on the tier: what it accepts
at one tier, it accepts with the same result at every larger one.  A program of a tier without
arrays is in normal form as it stands.
-/

namespace ArrayLang.Typing

open Source

variable {tier tier' : Tier} {env : Env}

/-! ## Larger tiers -/

/-- Whatever a step of the checker returns, another one returns, too. -/
def Keeps {α : Type} (x x' : Check α) : Prop := ∀ a, x = .ok a → x' = .ok a

theorem Keeps.refl {α : Type} (x : Check α) : Keeps x x := fun _ h => h

theorem Keeps.bind {α β : Type} {x x' : Check α} {f f' : α → Check β} (hx : Keeps x x')
    (hf : ∀ a, Keeps (f a) (f' a)) : Keeps (x >>= f) (x' >>= f') := by
  intro b h
  obtain ⟨a, ha, h⟩ := ok_of_bind h
  rw [hx a ha]
  exact hf a b h

theorem keeps_checkElems {want : Ty} {position : Nat} {elems : List Expr}
    (h : ∀ e ∈ elems, Keeps (checkExpr tier env e) (checkExpr tier' env e)) :
    Keeps (checkElems tier env want position elems) (checkElems tier' env want position elems) := by
  induction elems generalizing position with
  | nil => exact .refl _
  | cons e rest ih =>
      obtain ⟨he, hrest⟩ := List.forall_mem_cons.mp h
      rw [checkElems, checkElems]
      apply he.bind
      intro x
      apply (Keeps.refl _).bind
      intro y
      split
      · exact (ih hrest).bind fun _ => .refl _
      · exact .refl _

theorem keeps_checkStmts {stmts : List Stmt}
    (h : ∀ s ∈ stmts, ∀ env, Keeps (checkStmt tier env s) (checkStmt tier' env s)) :
    Keeps (checkStmts tier env stmts) (checkStmts tier' env stmts) := by
  induction stmts generalizing env with
  | nil => exact .refl _
  | cons s rest ih =>
      obtain ⟨hs, hrest⟩ := List.forall_mem_cons.mp h
      rw [checkStmts, checkStmts]
      exact (hs env).bind fun _ => (ih hrest).bind fun _ => .refl _

section

variable (hle : tier.level ≤ tier'.level)
include hle

theorem keeps_allowed (what : String) (node : Tier) :
    Keeps (allowed tier what node) (allowed tier' what node) := by
  rintro ⟨⟩ h
  have hadmits := admits_of_allowed h
  rw [Tier.admits, decide_eq_true_eq] at hadmits
  rw [allowed, if_pos]
  rw [Tier.admits, decide_eq_true_eq]
  exact Int.le_trans hadmits hle

theorem keeps_checkCall (ty : Ty) (name : String) {args : List Expr}
    (h : ∀ e ∈ args, Keeps (checkExpr tier env e) (checkExpr tier' env e)) :
    Keeps (checkExpr tier env (.call ty name args)) (checkExpr tier' env (.call ty name args)) := by
  rw [checkExpr.eq_def, checkExpr.eq_def tier']
  apply (keeps_allowed hle _ _).bind
  intro _
  cases Builtin.ofText? name with
  | none => exact .refl _
  | some f =>
      -- Arguments are only looked at when `print` or `len` has exactly one.
      cases f with
      | print =>
          rcases args with _ | ⟨x, _ | _⟩
          · exact .refl _
          · exact (h x (by simp)).bind fun _ => .refl _
          · exact .refl _
      | inputInt => exact .refl _
      | len =>
          apply (keeps_allowed hle _ _).bind
          intro _
          rcases args with _ | ⟨x, _ | _⟩
          · exact .refl _
          · exact (h x (by simp)).bind fun _ => .refl _
          · exact .refl _

theorem keeps_checkExpr (e : Expr) : Keeps (checkExpr tier env e) (checkExpr tier' env e) := by
  induction e with
  | missing => exact .refl _
  | int | bool | var =>
      rw [checkExpr, checkExpr]
      exact (keeps_allowed hle _ _).bind fun _ => .refl _
  | unary ty op x ih =>
      cases op with
      | neg | not =>
          rw [checkExpr, checkExpr]
          exact (keeps_allowed hle _ _).bind fun _ => ih.bind fun _ => .refl _
      | unknown code =>
          rw [checkExpr, checkExpr]
          exact (keeps_allowed hle _ _).bind fun _ => .refl _
  | binary ty op left right ihl ihr =>
      by_cases hop : ∃ code, op = .unknown code
      · obtain ⟨code, rfl⟩ := hop
        rw [checkExpr, checkExpr]
        exact (keeps_allowed hle _ _).bind fun _ => .refl _
      · have hknown : ∀ code, op ≠ .unknown code := fun code heq => hop ⟨code, heq⟩
        rw [checkExpr, checkExpr]
        · apply (keeps_allowed hle _ _).bind
          intro _
          apply ihl.bind fun _ => (Keeps.refl _).bind fun _ => ?_
          exact ihr.bind fun _ => .refl _
        · exact hknown
        · exact hknown
  | call ty name args ih => exact keeps_checkCall hle ty name ih
  | arrayLit ty elemTy elems ih =>
      cases elems with
      | nil =>
          rw [checkExpr, checkExpr]
          exact (keeps_allowed hle _ _).bind fun _ => .refl _
      | cons first rest =>
          obtain ⟨hfirst, hrest⟩ := List.forall_mem_cons.mp ih
          rw [checkExpr, checkExpr]
          apply (keeps_allowed hle _ _).bind
          intro _
          apply hfirst.bind fun _ => (Keeps.refl _).bind fun _ => ?_
          exact (keeps_checkElems hrest).bind fun _ => .refl _
  | arrayFill ty length fill ihn ihv =>
      rw [checkExpr, checkExpr]
      apply (keeps_allowed hle _ _).bind
      intro _
      apply ihn.bind fun _ => (Keeps.refl _).bind fun _ => ?_
      exact ihv.bind fun _ => .refl _
  | index ty array index iha ihi =>
      rw [checkExpr, checkExpr]
      apply (keeps_allowed hle _ _).bind
      intro _
      apply iha.bind fun _ => (Keeps.refl _).bind fun _ => (Keeps.refl _).bind fun _ => ?_
      exact ihi.bind fun _ => .refl _

theorem keeps_checkCondition (what : String) (cond : Expr) :
    Keeps (checkCondition tier env what cond) (checkCondition tier' env what cond) :=
  (keeps_checkExpr hle cond).bind fun _ => .refl _

theorem keeps_checkStmt (s : Stmt) (env : Env) :
    Keeps (checkStmt tier env s) (checkStmt tier' env s) := by
  induction s generalizing env with
  | missing => exact .refl _
  | expr x =>
      rw [checkStmt, checkStmt]
      apply (keeps_allowed hle _ _).bind
      intro _
      exact (keeps_checkExpr hle x).bind fun _ => .refl _
  | assign name value =>
      rw [checkStmt, checkStmt]
      apply (keeps_allowed hle _ _).bind
      intro _
      cases isVariableName name with
      | false => exact .refl _
      | true => exact (keeps_checkExpr hle value).bind fun _ => .refl _
  | indexAssign array index value =>
      rw [checkStmt, checkStmt]
      apply (keeps_allowed hle _ _).bind
      intro _
      apply (keeps_checkExpr hle array).bind
      intro _
      apply (Keeps.refl _).bind fun _ => (Keeps.refl _).bind fun _ => ?_
      apply (keeps_checkExpr hle index).bind fun _ => (Keeps.refl _).bind fun _ => ?_
      exact (keeps_checkExpr hle value).bind fun _ => .refl _
  | ifElse cond thenBody elseBody ihthen ihelse =>
      rw [checkStmt, checkStmt]
      apply (keeps_allowed hle _ _).bind
      intro _
      apply (keeps_checkCondition hle _ cond).bind
      intro _
      apply (keeps_checkStmts ihthen).bind
      intro _
      exact (keeps_checkStmts ihelse).bind fun _ => .refl _
  | whileDo cond body ih =>
      rw [checkStmt, checkStmt]
      apply (keeps_allowed hle _ _).bind
      intro _
      apply (keeps_checkCondition hle _ cond).bind
      intro _
      exact (keeps_checkStmts ih).bind fun _ => .refl _

/-- What the checker accepts, it accepts with the same result at every larger tier. -/
theorem check_mono {source checked : List Stmt}
    (h : check tier (some source) = .ok (env, checked)) :
    check tier' (some source) = .ok (env, checked) := by
  have hkeeps : Keeps (checkStmts tier [] source) (checkStmts tier' [] source) :=
    keeps_checkStmts fun s _ => keeps_checkStmt hle s
  rw [check, hkeeps _ (checkStmts_of_check h)]
  rfl

end

/-! ## Tiers without arrays -/

section

variable (harray : tier.admits .array = false)
include harray

theorem HasType.isNormal {e : Expr} {ty : Ty} (h : HasType tier env e ty) :
    e.isNormal = true := by
  induction h with
  | int | bool | var | input => rfl
  | neg _ ih | not _ ih => exact ih
  | arith _ _ _ ihl ihr | order _ _ _ ihl ihr | logic _ _ _ ihl ihr =>
      rw [Expr.isNormal, ihl, ihr, Bool.and_self]
  | equality _ _ _ _ ihl ihr | identity _ _ ihl ihr =>
      rw [Expr.isNormal, ihl, ihr, Bool.and_self]
  | print _ _ ih => simp [Expr.isNormal, Expr.listNormal, ih]
  | len hadmits | arrayLit hadmits | arrayFill hadmits | index hadmits =>
      exact absurd (hadmits.symm.trans harray) (by simp)

theorem StmtTyped.isNormal {s : Stmt} (h : StmtTyped tier env s) : s.isNormal = true := by
  induction h with
  | expr hx => exact hx.isNormal harray
  | assign _ _ hv => exact hv.isNormal harray
  | indexAssign hadmits => exact absurd (hadmits.symm.trans harray) (by simp)
  | ifElse hcond _ _ ihthen ihelse =>
      rw [Stmt.isNormal, hcond.isNormal harray, Stmt.listNormal_iff.mpr ihthen,
        Stmt.listNormal_iff.mpr ihelse]
      rfl
  | whileDo hcond _ ih =>
      rw [Stmt.isNormal, hcond.isNormal harray, Stmt.listNormal_iff.mpr ih]
      rfl

end

end ArrayLang.Typing
