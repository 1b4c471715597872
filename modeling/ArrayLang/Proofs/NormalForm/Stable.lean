import ArrayLang.Proofs.NormalForm.Output

/-!
# Normal forms stay as they are

Normalisation succeeds exactly on annotated programs, and its output is annotated again.  So a
normal form can be normalised a second time, with any variables, and nothing changes.  Programs that
are in normal form are also the only ones that need no temporaries.
-/

namespace ArrayLang.NormalForm

open Source List

variable {env : Env} {T T₁ T' : Temps} {es xs xs' : List Expr} {first moves : List Stmt}
  {stmts out : List Stmt}

/-! ## What can be normalised is annotated -/

section

variable {α β : Type} {r : β × Temps}

theorem exists_of_bind {x : Hoist α} {f : α → Hoist β} (h : (x >>= f) T = .ok r) :
    ∃ a T₁, x T = .ok (a, T₁) ∧ f a T₁ = .ok r := by
  have hstep : (x >>= f) T = (x T >>= fun p => f p.1 p.2) := rfl
  rw [hstep] at h
  cases hx : x T with
  | error error =>
      rw [hx] at h
      cases h
  | ok p =>
      rw [hx] at h
      exact ⟨p.1, p.2, rfl, h⟩

theorem isValid_of_typed {e : Expr} {f : Unit → Hoist β} (h : (typed e >>= f) T = .ok r) :
    e.ty.isValid = true ∧ f () T = .ok r := by
  rw [typed] at h
  cases hvalid : e.ty.isValid with
  | false =>
      rw [hvalid] at h
      cases h
  | true =>
      rw [hvalid] at h
      exact ⟨rfl, h⟩

end

theorem annotated_of_normList {done : List Expr} {r : (List Stmt × List Expr) × Temps}
    (hes : ∀ e ∈ es, ∀ T r, normExpr env e T = .ok r → Annotated e)
    (h : normList env first done es T = .ok r) : ∀ e ∈ es, Annotated e := by
  induction es generalizing first done T with
  | nil => exact forall_mem_nil _
  | cons e rest ih =>
      rw [normList] at h
      obtain ⟨hself, hrest⟩ := forall_mem_cons.mp hes
      obtain ⟨⟨own, x⟩, T₁, he, h⟩ := exists_of_bind h
      rw [forall_mem_cons]
      constructor
      · exact hself T _ he
      · cases own with
        | nil => exact ih hrest h
        | cons s others =>
            obtain ⟨⟨moves, done'⟩, T₂, -, h⟩ := exists_of_bind h
            exact ih hrest h

theorem annotated_of_normExpr {e : Expr} {r : (List Stmt × Expr) × Temps}
    (h : normExpr env e T = .ok r) : Annotated e := by
  induction e generalizing T r with
  | missing =>
      rw [normExpr] at h
      cases h
  | int ty value =>
      rw [normExpr] at h
      exact .int (isValid_of_typed h).1
  | bool ty value =>
      rw [normExpr] at h
      exact .bool (isValid_of_typed h).1
  | var ty name =>
      rw [normExpr] at h
      exact .var (isValid_of_typed h).1
  | unary ty op x ih =>
      rw [normExpr] at h
      obtain ⟨hty, h⟩ := isValid_of_typed h
      obtain ⟨_, T₁, hx, -⟩ := exists_of_bind h
      exact .unary hty (ih hx)
  | binary ty op l r ihl ihr =>
      rw [normExpr] at h
      obtain ⟨hty, h⟩ := isValid_of_typed h
      obtain ⟨⟨_, _⟩, T₁, hl, h⟩ := exists_of_bind h
      obtain ⟨_, T₂, hr, -⟩ := exists_of_bind h
      exact .binary hty (ihl hl) (ihr hr)
  | call ty name args ih =>
      rw [normExpr] at h
      obtain ⟨hty, h⟩ := isValid_of_typed h
      obtain ⟨_, T₁, hargs, -⟩ := exists_of_bind h
      exact .call hty (annotated_of_normList (fun a ha _ _ => ih a ha) hargs)
  | arrayLit ty elemTy elems ih =>
      rw [normExpr] at h
      obtain ⟨hty, h⟩ := isValid_of_typed h
      obtain ⟨_, T₁, helems, -⟩ := exists_of_bind h
      exact .arrayLit hty (annotated_of_normList (fun e he _ _ => ih e he) helems)
  | arrayFill ty n v ihn ihv =>
      rw [normExpr] at h
      obtain ⟨hty, h⟩ := isValid_of_typed h
      obtain ⟨⟨_, _⟩, T₁, hn, h⟩ := exists_of_bind h
      obtain ⟨_, T₂, hv, -⟩ := exists_of_bind h
      exact .arrayFill hty (ihn hn) (ihv hv)
  | index ty a i iha ihi =>
      rw [normExpr] at h
      obtain ⟨hty, h⟩ := isValid_of_typed h
      obtain ⟨⟨_, _⟩, T₁, ha, h⟩ := exists_of_bind h
      obtain ⟨_, T₂, hi, -⟩ := exists_of_bind h
      exact .index hty (iha ha) (ihi hi)

theorem annotated_of_normStmts {r : List Stmt × Temps}
    (hstmts : ∀ s ∈ stmts, ∀ T r, normStmt env s T = .ok r → StmtAnnotated s)
    (h : normStmts env stmts T = .ok r) : ∀ s ∈ stmts, StmtAnnotated s := by
  induction stmts generalizing T r with
  | nil => exact forall_mem_nil _
  | cons s rest ih =>
      rw [normStmts] at h
      obtain ⟨hself, hrest⟩ := forall_mem_cons.mp hstmts
      obtain ⟨_, T₁, hs, h⟩ := exists_of_bind h
      obtain ⟨_, T₂, h, -⟩ := exists_of_bind h
      exact forall_mem_cons.mpr ⟨hself T _ hs, ih hrest h⟩

theorem annotated_of_normStmt {s : Stmt} {r : List Stmt × Temps}
    (h : normStmt env s T = .ok r) : StmtAnnotated s := by
  induction s generalizing T r with
  | missing =>
      rw [normStmt] at h
      cases h
  | expr x =>
      rw [normStmt] at h
      obtain ⟨_, T₁, hx, -⟩ := exists_of_bind h
      exact .expr (annotated_of_normExpr hx)
  | assign name v =>
      rw [normStmt] at h
      obtain ⟨_, T₁, hv, -⟩ := exists_of_bind h
      exact .assign (annotated_of_normExpr hv)
  | indexAssign a i v =>
      rw [normStmt] at h
      obtain ⟨⟨_, _⟩, T₁, ha, h⟩ := exists_of_bind h
      obtain ⟨⟨_, _⟩, T₂, hi, h⟩ := exists_of_bind h
      obtain ⟨⟨_, _, _⟩, T₃, -, h⟩ := exists_of_bind h
      obtain ⟨_, T₄, hv, -⟩ := exists_of_bind h
      exact .indexAssign (annotated_of_normExpr ha) (annotated_of_normExpr hi)
        (annotated_of_normExpr hv)
  | ifElse c thenBody elseBody ihthen ihelse =>
      rw [normStmt] at h
      obtain ⟨⟨_, _⟩, T₁, hc, h⟩ := exists_of_bind h
      obtain ⟨_, T₂, hthen, h⟩ := exists_of_bind h
      obtain ⟨_, T₃, helse, -⟩ := exists_of_bind h
      exact .ifElse (annotated_of_normExpr hc)
        (annotated_of_normStmts (fun s hs _ _ => ihthen s hs) hthen)
        (annotated_of_normStmts (fun s hs _ _ => ihelse s hs) helse)
  | whileDo c body ih =>
      rw [normStmt] at h
      obtain ⟨⟨_, _⟩, T₁, hc, h⟩ := exists_of_bind h
      obtain ⟨_, T₂, hbody, -⟩ := exists_of_bind h
      exact .whileDo (annotated_of_normExpr hc)
        (annotated_of_normStmts (fun s hs _ _ => ih s hs) hbody)

/-- What was normalised is annotated, and its normal form has the shape of normal forms. -/
theorem normalizes_of_normalize {temps : List Binding}
    (h : normalize env (some stmts) = .ok (out, temps)) :
    (∀ s ∈ stmts, StmtAnnotated s) ∧ ∃ T', T'.made = temps ∧ Normalizes {} stmts out T' := by
  have hannotated : ∀ s ∈ stmts, StmtAnnotated s := by
    cases hrun : normStmts env stmts {} with
    | error error =>
        rw [normalize, StateT.run, hrun] at h
        cases h
    | ok r => exact annotated_of_normStmts (fun _ _ _ _ => annotated_of_normStmt) hrun
  obtain ⟨out', T', hrun, hnorm⟩ := normalize_of_annotated env hannotated
  obtain ⟨rfl, htemps⟩ := Prod.mk.inj (Except.ok.inj (hrun.symm.trans h))
  exact ⟨hannotated, T', htemps, hnorm⟩

/-! ## Outputs are annotated -/

theorem Annotated.isValid {e : Expr} (h : Annotated e) : e.ty.isValid = true := by
  cases h <;> assumption

section

variable {array : Bool} {e e' : Expr}

theorem SameNode.annotated_operands (h : SameNode array e es e' xs) (he : Annotated e) :
    ∀ x ∈ es, Annotated x := by
  cases h <;> cases he <;> simp_all

theorem SameNode.annotated (h : SameNode array e es e' xs) (he : Annotated e)
    (hxs : ∀ x ∈ xs, Annotated x) : Annotated e' := by
  have hty := he.isValid
  cases h with
  | unary => exact .unary hty (by simpa using hxs)
  | binary => exact .binary hty (hxs _ (by simp)) (hxs _ (by simp))
  | call => exact .call hty hxs
  | arrayLit => exact .arrayLit hty hxs
  | arrayFill => exact .arrayFill hty (hxs _ (by simp)) (hxs _ (by simp))
  | index => exact .index hty (hxs _ (by simp)) (hxs _ (by simp))

end

theorem Annotated.logic_inv {ty : Ty} {op : BinaryOp} {l r : Expr}
    (h : Annotated (.binary ty op l r)) : ty.isValid = true ∧ Annotated l ∧ Annotated r := by
  cases h with
  | binary hty hl hr => exact ⟨hty, hl, hr⟩

theorem Fresh.annotated {ty : Ty} {temp : Binding} (h : Fresh T ty temp T')
    (hty : ty.isValid = true) : Annotated (use temp) := by
  cases h
  exact .var hty

theorem Moves.annotated (h : Moves T xs moves xs' T') (hxs : ∀ x ∈ xs, Annotated x) :
    (∀ s ∈ moves, StmtAnnotated s) ∧ ∀ x ∈ xs', Annotated x := by
  induction h with
  | nil => exact ⟨forall_mem_nil _, forall_mem_nil _⟩
  | keep _ _ ih =>
      obtain ⟨hx, hxs⟩ := forall_mem_cons.mp hxs
      obtain ⟨hmoves, hxs'⟩ := ih hxs
      exact ⟨hmoves, forall_mem_cons.mpr ⟨hx, hxs'⟩⟩
  | move _ hfresh _ ih =>
      obtain ⟨hx, hxs⟩ := forall_mem_cons.mp hxs
      obtain ⟨hmoves, hxs'⟩ := ih hxs
      constructor
      · exact forall_mem_cons.mpr ⟨.assign hx, hmoves⟩
      · exact forall_mem_cons.mpr ⟨hfresh.annotated hx.isValid, hxs'⟩

theorem choose_annotated {op : BinaryOp} {temp : Binding} {rest : List Stmt}
    (htemp : Annotated (use temp)) (hrest : ∀ s ∈ rest, StmtAnnotated s) :
    StmtAnnotated (choose op temp rest) := by
  rw [choose]
  split
  · exact .ifElse htemp (forall_mem_nil _) hrest
  · exact .ifElse htemp hrest (forall_mem_nil _)

theorem Prepares.annotated (h : Prepares T es first xs T') (hes : ∀ e ∈ es, Annotated e) :
    (∀ s ∈ first, StmtAnnotated s) ∧ ∀ x ∈ xs, Annotated x := by
  induction h with
  | nil => exact ⟨forall_mem_nil _, forall_mem_nil _⟩
  | atom => exact ⟨forall_mem_nil _, hes⟩
  | node hnode _ ih =>
      rw [forall_mem_singleton] at hes ⊢
      obtain ⟨hfirst, hxs⟩ := ih (hnode.annotated_operands hes)
      exact ⟨hfirst, hnode.annotated hes hxs⟩
  | arrayNode hnode _ hmoves ih =>
      rw [forall_mem_singleton] at hes ⊢
      obtain ⟨hfirst, hxs⟩ := ih (hnode.annotated_operands hes)
      obtain ⟨hmoves, hxs'⟩ := hmoves.annotated hxs
      exact ⟨forall_mem_append.mpr ⟨hfirst, hmoves⟩, hnode.annotated hes hxs'⟩
  | logic _ _ _ ihl ihr =>
      simp only [forall_mem_singleton] at hes ihl ihr ⊢
      obtain ⟨hty, hl, hr⟩ := hes.logic_inv
      exact ⟨(ihl hl).1, .binary hty (ihl hl).2 (ihr hr).2⟩
  | @logicMoved _ _ _ _ _ _ _ _ l' r' _ own temp _ _ _ _ hfresh ihl ihr =>
      simp only [forall_mem_singleton] at hes ihl ihr ⊢
      obtain ⟨-, hl, hr⟩ := hes.logic_inv
      have htemp := hfresh.annotated rfl
      have hrest : ∀ s ∈ own ++ [.assign temp.name r'], StmtAnnotated s := by
        rw [forall_mem_append, forall_mem_singleton]
        exact ⟨(ihr hr).1, .assign (ihr hr).2⟩
      rw [forall_mem_append, forall_mem_cons, forall_mem_singleton]
      exact ⟨⟨(ihl hl).1, .assign (ihl hl).2, choose_annotated htemp hrest⟩, htemp⟩
  | snoc _ _ ih ih' =>
      obtain ⟨hes, he⟩ := forall_mem_append.mp hes
      exact ⟨(ih hes).1, forall_mem_append.mpr ⟨(ih hes).2, (ih' he).2⟩⟩
  | snocMoved _ _ _ hmoves ih ih' =>
      obtain ⟨hes, he⟩ := forall_mem_append.mp hes
      obtain ⟨hmoved, hxs'⟩ := hmoves.annotated (ih hes).2
      constructor
      · exact forall_mem_append.mpr ⟨forall_mem_append.mpr ⟨(ih hes).1, hmoved⟩, (ih' he).1⟩
      · exact forall_mem_append.mpr ⟨hxs', (ih' he).2⟩

theorem Prepares.annotated_single {e x : Expr} (h : Prepares T [e] first [x] T')
    (he : Annotated e) : (∀ s ∈ first, StmtAnnotated s) ∧ Annotated x := by
  have hprepared := h.annotated (forall_mem_singleton.mpr he)
  rwa [forall_mem_singleton] at hprepared

/-- A normal form is annotated if the program is. -/
theorem Normalizes.annotated (h : Normalizes T stmts out T')
    (hstmts : ∀ s ∈ stmts, StmtAnnotated s) : ∀ s ∈ out, StmtAnnotated s := by
  induction h with
  | nil => exact hstmts
  | expr hx _ ih =>
      obtain ⟨hs, hrest⟩ := forall_mem_cons.mp hstmts
      rw [forall_mem_append, forall_mem_cons]
      cases hs with
      | expr hs =>
          obtain ⟨hfirst, hx'⟩ := hx.annotated_single hs
          exact ⟨hfirst, .expr hx', ih hrest⟩
  | assign hv _ ih =>
      obtain ⟨hs, hrest⟩ := forall_mem_cons.mp hstmts
      rw [forall_mem_append, forall_mem_cons]
      cases hs with
      | assign hs =>
          obtain ⟨hfirst, hv'⟩ := hv.annotated_single hs
          exact ⟨hfirst, .assign hv', ih hrest⟩
  | indexAssign hai hmoves hv _ ih =>
      obtain ⟨hs, hrest⟩ := forall_mem_cons.mp hstmts
      simp only [forall_mem_append, forall_mem_cons]
      cases hs with
      | indexAssign ha hi hs =>
          obtain ⟨hfirst, hxs⟩ := hai.annotated (by simp [ha, hi])
          obtain ⟨hmoves, hxs'⟩ := hmoves.annotated hxs
          obtain ⟨hown, hv'⟩ := hv.annotated_single hs
          rw [forall_mem_cons, forall_mem_singleton] at hxs'
          exact ⟨⟨⟨hfirst, hmoves⟩, hown⟩, .indexAssign hxs'.1 hxs'.2 hv', ih hrest⟩
  | ifElse hc _ _ _ ihthen ihelse ih =>
      obtain ⟨hs, hrest⟩ := forall_mem_cons.mp hstmts
      rw [forall_mem_append, forall_mem_cons]
      cases hs with
      | ifElse hs hthen helse =>
          obtain ⟨hfirst, hc'⟩ := hc.annotated_single hs
          exact ⟨hfirst, .ifElse hc' (ihthen hthen) (ihelse helse), ih hrest⟩
  | whileDo hc _ _ ihbody ih =>
      obtain ⟨hs, hrest⟩ := forall_mem_cons.mp hstmts
      rw [forall_mem_cons]
      cases hs with
      | whileDo hs hbody => exact ⟨.whileDo (hc.annotated_single hs).2 (ihbody hbody), ih hrest⟩
  | @whileMoved _ _ _ _ _ c c' first _ _ _ _ temp hc _ _ hfresh _ ihbody ih =>
      obtain ⟨hs, hrest⟩ := forall_mem_cons.mp hstmts
      rw [forall_mem_append, forall_mem_cons]
      cases hs with
      | whileDo hs hbody =>
          obtain ⟨hfirst, hc'⟩ := hc.annotated_single hs
          have htest : ∀ s ∈ first ++ [.assign temp.name c'], StmtAnnotated s := by
            rw [forall_mem_append, forall_mem_singleton]
            exact ⟨hfirst, .assign hc'⟩
          have hloop := forall_mem_append.mpr ⟨ihbody hbody, htest⟩
          exact ⟨htest, .whileDo (hfresh.annotated rfl) hloop, ih hrest⟩

/-! ## Programs that need no temporaries -/

/-- On the way from `T` to `T'` temporaries are made, and only if `P` holds there may be none. -/
def Makes (T T' : Temps) (P : Prop) : Prop :=
  ∃ temps, T'.made = T.made ++ temps ∧ (temps = [] → P)

section

variable {P Q : Prop}

theorem Makes.none (h : P) : Makes T T P := ⟨[], (append_nil _).symm, fun _ => h⟩

theorem Makes.mono (h : Makes T T' P) (hPQ : P → Q) : Makes T T' Q := by
  obtain ⟨temps, hmade, hP⟩ := h
  exact ⟨temps, hmade, fun hnil => hPQ (hP hnil)⟩

theorem Makes.trans (h : Makes T T₁ P) (h' : Makes T₁ T' Q) : Makes T T' (P ∧ Q) := by
  obtain ⟨temps, hmade, hP⟩ := h
  obtain ⟨temps', hmade', hQ⟩ := h'
  refine ⟨temps ++ temps', by rw [hmade', hmade, append_assoc], ?_⟩
  intro hnil
  obtain ⟨hnil, hnil'⟩ := append_eq_nil_iff.mp hnil
  exact ⟨hP hnil, hQ hnil'⟩

end

theorem Fresh.makes {ty : Ty} {temp : Binding} (h : Fresh T ty temp T') : Makes T T' False := by
  cases h
  exact ⟨_, rfl, by simp⟩

theorem Moves.makes (h : Moves T xs moves xs' T') : Makes T T' (moves = []) := by
  induction h with
  | nil => exact .none rfl
  | keep _ _ ih => exact ih
  | move _ hfresh _ ih => exact (hfresh.makes.trans ih).mono (by simp)

/-- Statements in front of operands come with temporaries. -/
theorem Prepares.makes (h : Prepares T es first xs T') : Makes T T' (first = []) := by
  induction h with
  | nil => exact .none rfl
  | atom => exact .none rfl
  | node _ _ ih => exact ih
  | arrayNode _ _ hmoves ih => exact (ih.trans hmoves.makes).mono append_eq_nil_iff.mpr
  | logic _ _ _ ihl ihr => exact (ihl.trans ihr).mono And.left
  | logicMoved _ _ _ _ hfresh ihl ihr => exact ((ihl.trans ihr).trans hfresh.makes).mono (by simp)
  | snoc _ _ ih ih' => exact (ih.trans ih').mono And.left
  | snocMoved _ _ hown hmoves ih ih' =>
      refine ((ih.trans ih').trans hmoves.makes).mono ?_
      rintro ⟨⟨-, hnil⟩, -⟩
      exact absurd hnil hown

theorem Prepares.isNormal {e x : Expr} (h : Prepares T [e] first [x] T') (hnil : first = []) :
    e.isNormal = true := by
  have hnormal := h.eq_nil_iff.1.mp hnil
  rwa [Expr.listNormal_iff, forall_mem_singleton] at hnormal

/-- Only programs in normal form need no temporaries. -/
theorem Normalizes.makes (h : Normalizes T stmts out T') :
    Makes T T' (Stmt.listNormal stmts = true) := by
  induction h with
  | nil => exact .none rfl
  | expr hx _ ih =>
      refine (hx.makes.trans ih).mono ?_
      rintro ⟨hfirst, hrest⟩
      simp [Stmt.listNormal, Stmt.isNormal, hx.isNormal hfirst, hrest]
  | assign hv _ ih =>
      refine (hv.makes.trans ih).mono ?_
      rintro ⟨hfirst, hrest⟩
      simp [Stmt.listNormal, Stmt.isNormal, hv.isNormal hfirst, hrest]
  | indexAssign hai hmoves hv _ ih =>
      refine (hai.makes.trans (hmoves.makes.trans (hv.makes.trans ih))).mono ?_
      rintro ⟨hfirst, hmoved, hown, hrest⟩
      have hatomic := hmoves.eq_nil_iff.1.mp hmoved
      rw [(hai.eq_nil_iff.2 hfirst).1, all_cons, all_cons, all_nil, Bool.and_true] at hatomic
      simp [Stmt.listNormal, Stmt.isNormal, hatomic, hv.isNormal hown, hrest]
  | ifElse hc _ _ _ ihthen ihelse ih =>
      refine (hc.makes.trans (ihthen.trans (ihelse.trans ih))).mono ?_
      rintro ⟨hfirst, hthen, helse, hrest⟩
      simp [Stmt.listNormal, Stmt.isNormal, hc.isNormal hfirst, hthen, helse, hrest]
  | whileDo hc _ _ ihbody ih =>
      refine (hc.makes.trans (ihbody.trans ih)).mono ?_
      rintro ⟨hfirst, hbody, hrest⟩
      simp [Stmt.listNormal, Stmt.isNormal, hc.isNormal hfirst, hbody, hrest]
  | whileMoved hc hne _ hfresh _ ihbody ih =>
      refine (hc.makes.trans (ihbody.trans (hfresh.makes.trans ih))).mono ?_
      rintro ⟨hfirst, -⟩
      exact absurd hfirst hne

/-- What normalisation returns is in normal form, and normalising it once more changes nothing.
There are no temporaries exactly if the program was in normal form, and then it stays as it is. -/
theorem normalize_stable {temps : List Binding}
    (h : normalize env (some stmts) = .ok (out, temps)) :
    Stmt.listNormal out = true ∧
      (∀ vars, normalize vars (some out) = .ok (out, [])) ∧
      (temps = [] ↔ Stmt.listNormal stmts = true) ∧
      (Stmt.listNormal stmts = true → out = stmts) := by
  obtain ⟨hannotated, T', rfl, hnorm⟩ := normalizes_of_normalize h
  refine ⟨hnorm.normal, ?_, ?_, fun hnormal => (hnorm.eq_of_normal hnormal).1⟩
  · intro vars
    have hannotated' := hnorm.annotated hannotated
    obtain ⟨out', T'', hrun, hnorm'⟩ := normalize_of_annotated vars hannotated'
    obtain ⟨rfl, rfl⟩ := hnorm'.eq_of_normal hnorm.normal
    exact hrun
  · constructor
    · intro hnil
      obtain ⟨temps, hmade, hnormal⟩ := hnorm.makes
      exact hnormal (hmade.symm.trans hnil)
    · intro hnormal
      rw [(hnorm.eq_of_normal hnormal).2]

/-- The condition of a loop, of which the right operand is evaluated only when it is needed. -/
theorem loop_normalize_stable :
    let row := Expr.index (.array .int) (.var (.array (.array .int)) "rows") (.var .int "i")
    let found := Expr.binary .bool .eq (.index .int row (.int .int 0)) (.int .int 0)
    let loop : List Stmt := [.whileDo (.binary .bool .and (.var .bool "go") found) []]
    ∃ out temps, normalize [] (some loop) = .ok (out, temps) ∧ temps.length = 3 ∧
      Stmt.listNormal loop = false ∧ Stmt.listNormal out = true ∧
      ∀ vars, normalize vars (some out) = .ok (out, []) := by
  intro row found loop
  have hrun : normalize [] (some loop) = .ok (_, _) := rfl
  obtain ⟨hnormal, hagain, -⟩ := normalize_stable hrun
  exact ⟨_, _, hrun, rfl, rfl, hnormal, hagain⟩

end ArrayLang.NormalForm
