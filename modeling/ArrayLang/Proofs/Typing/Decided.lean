import ArrayLang.Proofs.Typing.Derivation

/-!
# The checker decides the type system

A program has a derivation if and only if the checker accepts it, and the environment at the end of
the derivation is the one that the checker returns.  The program that it returns carries the types
of the derivation on its nodes, and checking that program again changes nothing.
-/

namespace ArrayLang.Typing

open Source

variable {tier : Tier} {env env' : Env} {e : Expr} {ty : Ty}

/-! ## The checker does not look at types -/

theorem checkElems_bare {want : Ty} {position : Nat} {elems : List Expr}
    (h : ∀ e ∈ elems, checkExpr tier env e.bare = checkExpr tier env e) :
    checkElems tier env want position (Expr.listBare elems) =
      checkElems tier env want position elems := by
  induction elems generalizing position with
  | nil => rfl
  | cons e rest ih =>
      obtain ⟨he, hrest⟩ := List.forall_mem_cons.mp h
      rw [Expr.listBare, checkElems, checkElems, he]
      simp only [ih hrest]

theorem checkExpr_bare (e : Expr) : checkExpr tier env e.bare = checkExpr tier env e := by
  induction e with
  | missing => rfl
  | int old value => rw [Expr.bare, checkExpr, checkExpr, Expr.kindText, Expr.kindText]
  | bool old value => rw [Expr.bare, checkExpr, checkExpr, Expr.kindText, Expr.kindText]
  | var old name => rw [Expr.bare, checkExpr, checkExpr, Expr.kindText, Expr.kindText]
  | unary old op x ih =>
      cases op <;> simp only [Expr.bare, checkExpr, Expr.kindText, ih]
  | binary old op left right ihl ihr =>
      cases op <;> simp only [Expr.bare, checkExpr, Expr.kindText, ihl, ihr]
  | call old name args ih =>
      cases args with
      | nil => simp only [Expr.bare, Expr.listBare, checkExpr, Expr.kindText]
      | cons x rest =>
          cases rest with
          | nil =>
              have hx := ih x (by simp)
              simp only [Expr.bare, Expr.listBare, checkExpr, Expr.kindText, hx]
              rfl
          | cons y rest =>
              rw [Expr.bare, Expr.listBare_eq, checkExpr, checkExpr] <;> simp [Expr.kindText]
  | arrayLit old oldElem elems ih =>
      cases elems with
      | nil => simp only [Expr.bare, Expr.listBare, checkExpr, Expr.kindText]
      | cons first rest =>
          obtain ⟨hfirst, hrest⟩ := List.forall_mem_cons.mp ih
          simp only [Expr.bare, Expr.listBare, checkExpr, Expr.kindText, hfirst,
            checkElems_bare hrest]
  | arrayFill old length fill ihn ihv =>
      rw [Expr.bare, checkExpr, checkExpr, Expr.kindText, Expr.kindText, ihn, ihv]
  | index old array index iha ihi =>
      rw [Expr.bare, checkExpr, checkExpr, Expr.kindText, Expr.kindText, iha, ihi]

theorem checkCondition_bare (what : String) (cond : Expr) :
    checkCondition tier env what cond.bare = checkCondition tier env what cond := by
  rw [checkCondition, checkCondition, checkExpr_bare]

theorem checkStmts_bare {stmts : List Stmt}
    (h : ∀ s ∈ stmts, ∀ env, checkStmt tier env s.bare = checkStmt tier env s) :
    checkStmts tier env (Stmt.listBare stmts) = checkStmts tier env stmts := by
  induction stmts generalizing env with
  | nil => rfl
  | cons s rest ih =>
      obtain ⟨hs, hrest⟩ := List.forall_mem_cons.mp h
      rw [Stmt.listBare, checkStmts, checkStmts, hs env]
      simp only [ih hrest]

theorem checkStmt_bare (s : Stmt) (env : Env) :
    checkStmt tier env s.bare = checkStmt tier env s := by
  induction s generalizing env with
  | missing => rfl
  | expr x => rw [Stmt.bare, checkStmt, checkStmt, Stmt.kindText, Stmt.kindText, checkExpr_bare]
  | assign name value =>
      rw [Stmt.bare, checkStmt, checkStmt, Stmt.kindText, Stmt.kindText, checkExpr_bare]
  | indexAssign array index value =>
      rw [Stmt.bare, checkStmt, checkStmt, Stmt.kindText, Stmt.kindText, checkExpr_bare,
        checkExpr_bare, checkExpr_bare]
  | ifElse cond thenBody elseBody ihthen ihelse =>
      rw [Stmt.bare, checkStmt, checkStmt, Stmt.kindText, Stmt.kindText, checkCondition_bare]
      simp only [checkStmts_bare ihthen, checkStmts_bare ihelse]
  | whileDo cond body ih =>
      rw [Stmt.bare, checkStmt, checkStmt, Stmt.kindText, Stmt.kindText, checkCondition_bare]
      simp only [checkStmts_bare ih]

/-- The types that a program carries play no part in what the checker says. -/
theorem check_congr {source source' : List Stmt}
    (hbare : Stmt.listBare source' = Stmt.listBare source) :
    check tier (some source') = check tier (some source) := by
  rw [check, check, ← checkStmts_bare fun s _ => checkStmt_bare s, hbare,
    checkStmts_bare fun s _ => checkStmt_bare s]

/-! ## Derivable programs are accepted -/

theorem allowed_of_admits {what : String} {node : Tier} (h : tier.admits node = true) :
    allowed tier what node = .ok () :=
  if_pos h

theorem hasValue_of_ne (h : e.ty ≠ .void) : hasValue e = .ok e :=
  if_neg h

theorem hasType_of_eq {what : String} {want : Ty} (h : e.ty = want) (hvoid : want ≠ .void) :
    hasType what want e = .ok e := by
  rw [hasType, hasValue_of_ne (h ▸ hvoid)]
  exact if_pos h

/-- The checker gives an expression its type. -/
def Accepts (tier : Tier) (env : Env) (e : Expr) (ty : Ty) : Prop :=
  ∃ e', checkExpr tier env e = .ok e' ∧ e'.ty = ty

/-- Operands of fixed types, joined by an operator. -/
theorem accepts_binary {old ty tyl tyr : Ty} {op : BinaryOp} {left right : Expr}
    (hloop : tier.admits .loop = true) (hl : Accepts tier env left tyl)
    (hr : Accepts tier env right tyr)
    (hoperand : ∀ e, e.ty = tyl ∨ e.ty = tyr → operand op e = .ok e)
    (hop : ∀ l r, l.ty = tyl → r.ty = tyr → binaryTy op l r = .ok ty) :
    Accepts tier env (.binary old op left right) ty := by
  obtain ⟨l, hl, htl⟩ := hl
  obtain ⟨r, hr, htr⟩ := hr
  refine ⟨.binary ty op l r, ?_, rfl⟩
  rw [checkExpr]
  · simp only [allowed_of_admits hloop, hl, hr, bind, Except.bind, hoperand l (Or.inl htl),
      hoperand r (Or.inr htr), hop l r htl htr, pure, Except.pure]
  · intro code heq
    subst heq
    exact absurd (hop l r htl htr) (by simp [binaryTy])

theorem accepts_elems {want : Ty} {elems : List Expr} (hvoid : want ≠ .void)
    (h : ∀ e ∈ elems, Accepts tier env e want) (position : Nat) :
    ∃ elems', checkElems tier env want position elems = .ok elems' := by
  induction elems generalizing position with
  | nil => exact ⟨[], rfl⟩
  | cons e rest ih =>
      obtain ⟨⟨x, hx, hty⟩, hrest⟩ := List.forall_mem_cons.mp h
      obtain ⟨rest', hrest'⟩ := ih hrest (position + 1)
      refine ⟨x :: rest', ?_⟩
      simp only [checkElems, hx, hasValue_of_ne (hty ▸ hvoid), hty, hrest', bind, Except.bind,
        if_pos, pure, Except.pure]

theorem accepts_unary {old want : Ty} {op : UnaryOp} {x : Expr}
    (hop : (op = .neg ∧ want = .int) ∨ (op = .not ∧ want = .bool))
    (hloop : tier.admits .loop = true) (hx : Accepts tier env x want) :
    Accepts tier env (.unary old op x) want := by
  obtain ⟨y, hy, hty⟩ := hx
  refine ⟨.unary want op y, ?_, rfl⟩
  rcases hop with ⟨rfl, rfl⟩ | ⟨rfl, rfl⟩
  · simp only [checkExpr, allowed_of_admits hloop, hy, hasType_of_eq hty (by simp), bind,
      Except.bind, pure, Except.pure]
  · simp only [checkExpr, allowed_of_admits hloop, hy, hasType_of_eq hty (by simp), bind,
      Except.bind, pure, Except.pure]

theorem operand_of_fixed {op : BinaryOp} {want : Ty} (hop : operandTy? op = some want)
    (hvoid : want ≠ .void) (h : e.ty = want) : operand op e = .ok e := by
  rw [operand, hop]
  exact hasType_of_eq h hvoid

theorem operand_of_free {op : BinaryOp} (hop : operandTy? op = none) (h : e.ty ≠ .void) :
    operand op e = .ok e := by
  rw [operand, hop]
  exact hasValue_of_ne h

/-- The checker accepts every expression that has a type. -/
theorem Derives.accepts (h : Derives tier env e ty) : Accepts tier env e ty := by
  have hloop := h.admits_loop
  have hallowed : ∀ what, allowed tier what .loop = .ok () := fun _ => allowed_of_admits hloop
  induction h with
  | int _ => exact ⟨_, by rw [checkExpr, hallowed]; rfl, rfl⟩
  | bool _ => exact ⟨_, by rw [checkExpr, hallowed]; rfl, rfl⟩
  | var _ hfind => exact ⟨_, by rw [checkExpr, hallowed, hfind]; rfl, rfl⟩
  | neg _ ih => exact accepts_unary (by simp) hloop ih
  | not _ ih => exact accepts_unary (by simp) hloop ih
  | arith hop _ _ ihl ihr =>
      simp only [List.mem_cons, List.not_mem_nil, or_false] at hop
      apply accepts_binary hloop ihl ihr
      · intro e he
        rcases hop with rfl | rfl | rfl <;> exact operand_of_fixed rfl (by simp) (or_self_iff.mp he)
      · intro l r _ _
        rcases hop with rfl | rfl | rfl <;> rfl
  | order hop _ _ ihl ihr =>
      simp only [List.mem_cons, List.not_mem_nil, or_false] at hop
      apply accepts_binary hloop ihl ihr
      · intro e he
        rcases hop with rfl | rfl | rfl | rfl <;> exact operand_of_fixed rfl (by simp) (or_self_iff.mp he)
      · intro l r _ _
        rcases hop with rfl | rfl | rfl | rfl <;> rfl
  | logic hop _ _ ihl ihr =>
      simp only [List.mem_cons, List.not_mem_nil, or_false] at hop
      apply accepts_binary hloop ihl ihr
      · intro e he
        rcases hop with rfl | rfl <;> exact operand_of_fixed rfl (by simp) (or_self_iff.mp he)
      · intro l r _ _
        rcases hop with rfl | rfl <;> rfl
  | @equality _ _ ty _ _ hop hty _ _ ihl ihr =>
      simp only [List.mem_cons, List.not_mem_nil, or_false] at hop hty
      have hvoid : ty ≠ .void := by
        rcases hty with rfl | rfl <;> simp
      have hscalar : ty.isArray = false := by
        rcases hty with rfl | rfl <;> rfl
      apply accepts_binary hloop ihl ihr
      · intro e he
        have he : e.ty ≠ .void := he.elim (· ▸ hvoid) (· ▸ hvoid)
        rcases hop with rfl | rfl <;> exact operand_of_free rfl he
      · intro l r hl hr
        rcases hop with rfl | rfl <;> simp [binaryTy, hl, hr, hscalar]
  | identity _ _ ihl ihr =>
      apply accepts_binary hloop ihl ihr
      · intro e he
        have hvoid : e.ty ≠ .void := by
          rcases he with he | he <;> simp [he]
        exact operand_of_free rfl hvoid
      · intro l r hl hr
        simp [binaryTy, hl, hr, Ty.isArray]
  | print _ hvoid ih =>
      obtain ⟨x, hx, hty⟩ := ih
      exact ⟨.call .void Builtin.print.text [x],
        by simp [checkExpr, hallowed, Builtin.ofText?, Builtin.text, hx,
          hasValue_of_ne (hty ▸ hvoid), bind, Except.bind, pure, Except.pure], rfl⟩
  | input _ =>
      exact ⟨.call .int Builtin.inputInt.text [],
        by simp [checkExpr, hallowed, Builtin.ofText?, Builtin.text, bind, Except.bind, pure,
          Except.pure], rfl⟩
  | len harray _ ih =>
      obtain ⟨x, hx, hty⟩ := ih
      have hvoid : x.ty ≠ .void := by simp [hty]
      exact ⟨.call .int Builtin.len.text [x],
        by simp [checkExpr, hallowed, Builtin.ofText?, Builtin.text, allowed_of_admits harray, hx,
          hasValue_of_ne hvoid, hty, Ty.isArray, bind, Except.bind, pure, Except.pure], rfl⟩
  | @arrayLit _ _ elem elems harray hvoid hne _ ih =>
      cases elems with
      | nil => exact absurd rfl hne
      | cons first rest =>
          obtain ⟨⟨x, hx, hty⟩, hrest⟩ := List.forall_mem_cons.mp ih
          obtain ⟨rest', hrest'⟩ := accepts_elems hvoid hrest 1
          refine ⟨.arrayLit (.array elem) elem (x :: rest'), ?_, rfl⟩
          simp only [checkExpr, allowed_of_admits harray, hx, hasValue_of_ne (hty ▸ hvoid), hty,
            hrest', bind, Except.bind, pure, Except.pure]
  | @arrayFill _ elem _ _ harray hvoid _ _ ihn ihv =>
      obtain ⟨n, hn, htn⟩ := ihn
      obtain ⟨v, hv, htv⟩ := ihv
      refine ⟨.arrayFill (.array elem) n v, ?_, rfl⟩
      simp only [checkExpr, allowed_of_admits harray, hn, hv, hasType_of_eq htn (by simp),
        hasValue_of_ne (htv ▸ hvoid), htv, bind, Except.bind, pure, Except.pure]
  | @index _ elem _ _ harray _ _ iha ihi =>
      obtain ⟨a, ha, hta⟩ := iha
      obtain ⟨i, hi, hti⟩ := ihi
      have hvoid : a.ty ≠ .void := by simp [hta]
      refine ⟨.index elem a i, ?_, rfl⟩
      simp only [checkExpr, allowed_of_admits harray, ha, hi, hasType_of_eq hti (by simp),
        hasValue_of_ne hvoid, elemTy, hta, bind, Except.bind, pure, Except.pure]

/-- An expression has at most one type. -/
theorem Derives.unique {ty' : Ty} (h : Derives tier env e ty) (h' : Derives tier env e ty') :
    ty = ty' := by
  obtain ⟨x, hx, rfl⟩ := h.accepts
  obtain ⟨y, hy, rfl⟩ := h'.accepts
  rw [Except.ok.inj (hx.symm.trans hy)]

theorem HasType.carries (h : HasType tier env e ty) : Carries tier env e ty := by
  refine ⟨h.ty_eq, fun x hx ty' => ?_⟩
  have hnode := (h.of_mem_nodes x hx).derives
  constructor
  · exact hnode.unique
  · rintro rfl
    exact hnode

theorem isVariableName_iff {name : String} : isVariableName name = true ↔ MayAssign name := by
  unfold isVariableName MayAssign
  cases name.toList with
  | nil => simp
  | cons c rest =>
      by_cases hmark : c = '@'
      · subst hmark
        simp
      · simp [hmark]

theorem Derives.condition_ok {cond : Expr} (h : Derives tier env cond .bool) (what : String) :
    ∃ cond', checkCondition tier env what cond = .ok cond' := by
  obtain ⟨x, hx, hty⟩ := h.accepts
  refine ⟨x, ?_⟩
  simp only [checkCondition, hx, hty, bind, Except.bind, if_pos]

/-- The checker accepts every row of statements that has a derivation, and it returns the
environment at the end of the derivation. -/
theorem Derivation.checkStmts_ok {stmts : List Stmt}
    (h : Derivation (Derives tier) MayAssign tier env stmts env') :
    ∃ stmts', checkStmts tier env stmts = .ok (env', stmts') := by
  induction h with
  | nil => exact ⟨[], rfl⟩
  | expr hx _ ih =>
      obtain ⟨x, hcheck, -⟩ := hx.accepts
      obtain ⟨rest', hrest⟩ := ih
      refine ⟨.expr x :: rest', ?_⟩
      simp only [checkStmts, checkStmt, allowed_of_admits hx.admits_loop, hcheck, hrest, bind,
        Except.bind, pure, Except.pure]
  | @first _ _ name _ _ _ hname hv hvoid hfind _ ih =>
      obtain ⟨v, hcheck, rfl⟩ := hv.accepts
      obtain ⟨rest', hrest⟩ := ih
      refine ⟨.assign name v :: rest', ?_⟩
      simp only [checkStmts, checkStmt, allowed_of_admits hv.admits_loop, hcheck, hrest,
        isVariableName_iff.mpr hname, hasValue_of_ne hvoid, declare, hfind, bind, Except.bind,
        pure, Except.pure, Bool.not_true, Bool.false_eq_true, if_false]
  | @again _ _ name _ _ _ hname hv hvoid hfind _ ih =>
      obtain ⟨v, hcheck, rfl⟩ := hv.accepts
      obtain ⟨rest', hrest⟩ := ih
      refine ⟨.assign name v :: rest', ?_⟩
      simp only [checkStmts, checkStmt, allowed_of_admits hv.admits_loop, hcheck, hrest,
        isVariableName_iff.mpr hname, hasValue_of_ne hvoid, declare, hfind, bind, Except.bind,
        pure, Except.pure, Bool.not_true, Bool.false_eq_true, if_false, if_true]
  | indexAssign harray ha hi hv hvoid _ ih =>
      obtain ⟨a, hcheckA, hta⟩ := ha.accepts
      obtain ⟨i, hcheckI, hti⟩ := hi.accepts
      obtain ⟨v, hcheckV, rfl⟩ := hv.accepts
      obtain ⟨rest', hrest⟩ := ih
      have hvoidA : a.ty ≠ .void := by simp [hta]
      refine ⟨.indexAssign a i v :: rest', ?_⟩
      simp only [checkStmts, checkStmt, allowed_of_admits harray, hcheckA, hcheckI, hcheckV, hrest,
        hasValue_of_ne hvoidA, hasValue_of_ne hvoid, hasType_of_eq hti (by simp), elemTy, hta, bind,
        Except.bind, pure, Except.pure, if_true]
  | ifElse hcond _ _ _ ihthen ihelse ih =>
      obtain ⟨cond', hcheck⟩ := hcond.condition_ok "if"
      obtain ⟨thenBody', hthen⟩ := ihthen
      obtain ⟨elseBody', helse⟩ := ihelse
      obtain ⟨rest', hrest⟩ := ih
      refine ⟨.ifElse cond' thenBody' elseBody' :: rest', ?_⟩
      simp only [checkStmts, checkStmt, allowed_of_admits hcond.admits_loop, hcheck, hthen, helse,
        hrest, bind, Except.bind, pure, Except.pure]
  | whileDo hcond _ _ ihbody ih =>
      obtain ⟨cond', hcheck⟩ := hcond.condition_ok "while"
      obtain ⟨body', hbody⟩ := ihbody
      obtain ⟨rest', hrest⟩ := ih
      refine ⟨.whileDo cond' body' :: rest', ?_⟩
      simp only [checkStmts, checkStmt, allowed_of_admits hcond.admits_loop, hcheck, hbody, hrest,
        bind, Except.bind, pure, Except.pure]

/-! ## Accepted programs are derivable -/

/-- What the checker returns for a statement is derivable, with types on its nodes. -/
def DerivableStmt (tier : Tier) (s : Stmt) : Prop :=
  ∀ env env' s', EnvOk env → checkStmt tier env s = .ok (env', s') →
    Derivation (HasType tier) MayAssign tier env [s'] env'

theorem derivation_of_checkStmts {stmts stmts' : List Stmt}
    (hstmts : ∀ s ∈ stmts, DerivableStmt tier s) (henv : EnvOk env)
    (h : checkStmts tier env stmts = .ok (env', stmts')) :
    Derivation (HasType tier) MayAssign tier env stmts' env' := by
  induction stmts generalizing env stmts' with
  | nil =>
      obtain ⟨rfl, rfl⟩ := checkStmts_nil h
      exact .nil
  | cons s rest ih =>
      obtain ⟨hs, hrest⟩ := List.forall_mem_cons.mp hstmts
      obtain ⟨env₁, s', rest', hfirst, hothers, rfl⟩ := exists_of_checkStmts_cons h
      obtain ⟨henv₁, -⟩ := checkStmt_sound s env env₁ s' henv hfirst
      exact (hs env env₁ s' henv hfirst).append (ih hrest henv₁ hothers)

theorem derivation_of_declare {name : String} {value : Expr} (hname : isVariableName name = true)
    (hvalue : HasType tier env value value.ty) (hty : IsValue value.ty)
    (h : declare env name value.ty = .ok env') :
    Derivation (HasType tier) MayAssign tier env [.assign name value] env' := by
  rw [declare] at h
  cases hfind : env.find? name with
  | none =>
      rw [hfind] at h
      obtain rfl := Except.ok.inj h
      exact .first (isVariableName_iff.mp hname) hvalue hty.ne_void hfind .nil
  | some declared =>
      rw [hfind] at h
      by_cases hsame : declared = value.ty
      · simp only [if_pos hsame] at h
        obtain rfl := Except.ok.inj h
        exact .again (isVariableName_iff.mp hname) hvalue hty.ne_void (hsame ▸ hfind) .nil
      · simp only [if_neg hsame] at h
        exact absurd h (by simp)

theorem derivable_of_checkStmt (s : Stmt) : DerivableStmt tier s := by
  induction s with
  | missing =>
      intro env env' s' henv h
      cases accepted_of_checkStmt henv h
  | expr x =>
      intro env env' s' henv h
      cases accepted_of_checkStmt henv h with
      | expr hx => exact .expr hx.typed .nil
  | assign name value =>
      intro env env' s' henv h
      cases accepted_of_checkStmt henv h with
      | assign hname hv hvalue hdeclare =>
          exact derivation_of_declare hname hv.typed hvalue hdeclare
  | indexAssign array index value =>
      intro env env' s' henv h
      cases accepted_of_checkStmt henv h with
      | indexAssign hadmits ha hi hv =>
          exact .indexAssign hadmits ha hi hv ha.elem_isValue.ne_void .nil
  | ifElse cond thenBody elseBody ihthen ihelse =>
      intro env env' s' henv h
      cases accepted_of_checkStmt henv h with
      | ifElse hcond _ hthen helse =>
          obtain ⟨henv₁, -⟩ := checkStmts_sound (fun s _ => checkStmt_sound s) henv hthen
          apply Derivation.ifElse hcond
          · exact derivation_of_checkStmts ihthen henv hthen
          · exact derivation_of_checkStmts ihelse henv₁ helse
          · exact .nil
  | whileDo cond body ih =>
      intro env env' s' henv h
      cases accepted_of_checkStmt henv h with
      | whileDo hcond _ hbody =>
          apply Derivation.whileDo hcond
          · exact derivation_of_checkStmts ih henv hbody
          · exact .nil

/-- What the checker returns for a program is derivable, with types on its nodes. -/
theorem derivation_of_check {source checked : List Stmt}
    (h : check tier (some source) = .ok (env, checked)) :
    Derivation (HasType tier) MayAssign tier [] checked env :=
  derivation_of_checkStmts (fun s _ => derivable_of_checkStmt s) envOk_nil (checkStmts_of_check h)

/-! ## The decision -/

/-- The checker accepts a program, with the environment `env`, if and only if the program has a
derivation that ends in `env`. -/
theorem check_ok_iff {source : List Stmt} :
    (∃ checked, check tier (some source) = .ok (env, checked)) ↔
      Derivation (Derives tier) MayAssign tier [] source env := by
  constructor
  · rintro ⟨checked, h⟩
    apply (derivation_of_check h).congr _ (check_bare h).symm
    exact fun hbare htyped => htyped.derives.congr hbare
  · intro h
    obtain ⟨checked, hchecked⟩ := h.checkStmts_ok
    refine ⟨checked, ?_⟩
    rw [check, hchecked]
    rfl

/-- A program with its environment and with the types of its derivation on its nodes. -/
structure Annotated (tier : Tier) (source : List Stmt) (env : Env) (checked : List Stmt) :
    Prop where
  /-- Nothing but types is filled in. -/
  same : Stmt.listBare checked = Stmt.listBare source
  domain : ∀ name, name ∈ env.map Binding.name ↔ name ∈ Stmt.listTargets source
  distinct : (env.map Binding.name).Nodup
  /-- At its place in the derivation, each expression carries its types. -/
  carries : Derivation (Carries tier) MayAssign tier [] checked env
  valid : ∀ x ∈ Stmt.listNodes checked, x.ty ≠ .invalid
  vars : ∀ ty name, .var ty name ∈ Stmt.listNodes checked → env.find? name = some ty
  elements : ∀ ty elemTy elems, .arrayLit ty elemTy elems ∈ Stmt.listNodes checked →
    ty = .array elemTy
  stable : check tier (some checked) = .ok (env, checked)

theorem annotated_of_check {source checked : List Stmt}
    (h : check tier (some source) = .ok (env, checked)) : Annotated tier source env checked := by
  have hbare := check_bare h
  have hderivation := check_ok_iff.mp ⟨checked, h⟩
  have hnodes : ∀ x ∈ Stmt.listNodes checked, HasType tier env x x.ty := by
    intro x hx
    obtain ⟨s, hs, hx⟩ := Stmt.mem_listNodes.mp hx
    exact ((check_sound h).2 s hs).of_mem_nodes x hx
  constructor
  · exact hbare
  · intro name
    simpa using hderivation.mem_names name
  · exact (check_sound h).1.distinct
  · exact (derivation_of_check h).mono HasType.carries
  · intro x hx heq
    have hvalid := (hnodes x hx).isValid
    rw [heq] at hvalid
    exact absurd hvalid (by decide)
  · intro ty name hmem
    cases hnodes _ hmem with
    | var _ hfind _ => exact hfind
  · intro ty elemTy elems hmem
    cases hnodes _ hmem with
    | arrayLit => rfl
  · rw [check_congr hbare, h]

/-- The checker decides the type system: it accepts the programs that have a derivation, with the
environment at the end of it, and puts the types of the derivation on the nodes. -/
theorem check_decides_derivations (tier : Tier) (source : List Stmt) (env : Env) :
    ((∃ checked, check tier (some source) = .ok (env, checked)) ↔
        Derivation (Derives tier) MayAssign tier [] source env) ∧
      ∀ checked, check tier (some source) = .ok (env, checked) →
        Annotated tier source env checked :=
  ⟨check_ok_iff, fun _ h => annotated_of_check h⟩

/-- A variable of a loop body is used behind the loop, and the nodes carry wrong types. -/
def lastRow : List Stmt :=
  [.assign "n" (.int .bool 2),
    .assign "rows" (.arrayLit .int .void [.arrayLit .invalid .bool [.var .bool "n"]]),
    .whileDo (.binary .int .lt (.int .invalid 0) (.var .void "n"))
      [.assign "row" (.index .invalid (.var .int "rows") (.int .invalid 0)),
        .indexAssign (.var .invalid "row") (.int .invalid 0) (.unary .bool .neg (.var .bool "n")),
        .assign "n" (.binary .void .sub (.var .invalid "n") (.int .invalid 1))],
    .ifElse (.binary .invalid .is (.var .invalid "row") (.var .invalid "rows"))
      [.expr (.call .int "print" [.call .void "len" [.var .invalid "row"]])]
      [.assign "done" (.bool .int true)]]

def lastRowEnv : Env :=
  [⟨"n", .int⟩, ⟨"rows", .array (.array .int)⟩, ⟨"row", .array .int⟩, ⟨"done", .bool⟩]

theorem lastRow_decided :
    Derivation (Derives .array) MayAssign .array [] lastRow lastRowEnv ∧
      ∃ checked, check .array (some lastRow) = .ok (lastRowEnv, checked) ∧
        Annotated .array lastRow lastRowEnv checked :=
  ⟨(check_decides_derivations .array lastRow lastRowEnv).1.mp ⟨_, rfl⟩, _, rfl,
    (check_decides_derivations .array lastRow lastRowEnv).2 _ rfl⟩

end ArrayLang.Typing
