import ArrayLang.Proofs.Typing.Checked

/-!
# Derivations in program order

The type system of the language.  An expression has a type in the environment of the variables that
were assigned before it; statements lead from one environment to the next.  The types that a program
already carries on its nodes play no part, so a program and the same program with other types on
its nodes have the same derivations.

The rules for statements are stated for any judgement on expressions and any condition on the names
of variables.  A judgement can then also ask that the nodes carry their types, and a program of the
compiler's own can be held to the same rules without the ban on the names that it makes up.
-/

namespace ArrayLang.Typing

open Source

/-- An expression of a tier has a type, whatever types its nodes carry. -/
inductive Derives (tier : Tier) (env : Env) : Expr → Ty → Prop
  | int {old : Ty} {value : Int64} :
      tier.admits .loop = true → Derives tier env (.int old value) .int
  | bool {old : Ty} {value : Bool} :
      tier.admits .loop = true → Derives tier env (.bool old value) .bool
  | var {old ty : Ty} {name : String} :
      tier.admits .loop = true → env.find? name = some ty → Derives tier env (.var old name) ty
  | neg {old : Ty} {x : Expr} : Derives tier env x .int → Derives tier env (.unary old .neg x) .int
  | not {old : Ty} {x : Expr} :
      Derives tier env x .bool → Derives tier env (.unary old .not x) .bool
  | arith {old : Ty} {op : BinaryOp} {left right : Expr} :
      op ∈ [.add, .sub, .mul] → Derives tier env left .int → Derives tier env right .int →
      Derives tier env (.binary old op left right) .int
  | order {old : Ty} {op : BinaryOp} {left right : Expr} :
      op ∈ [.lt, .le, .gt, .ge] → Derives tier env left .int → Derives tier env right .int →
      Derives tier env (.binary old op left right) .bool
  | equality {old : Ty} {op : BinaryOp} {ty : Ty} {left right : Expr} :
      op ∈ [.eq, .ne] → ty ∈ [.int, .bool] → Derives tier env left ty → Derives tier env right ty →
      Derives tier env (.binary old op left right) .bool
  | logic {old : Ty} {op : BinaryOp} {left right : Expr} :
      op ∈ [.and, .or] → Derives tier env left .bool → Derives tier env right .bool →
      Derives tier env (.binary old op left right) .bool
  | identity {old elem elem' : Ty} {left right : Expr} :
      Derives tier env left (.array elem) → Derives tier env right (.array elem') →
      Derives tier env (.binary old .is left right) .bool
  | print {old ty : Ty} {x : Expr} :
      Derives tier env x ty → ty ≠ .void →
      Derives tier env (.call old Builtin.print.text [x]) .void
  | input {old : Ty} :
      tier.admits .loop = true → Derives tier env (.call old Builtin.inputInt.text []) .int
  | len {old elem : Ty} {x : Expr} :
      tier.admits .array = true → Derives tier env x (.array elem) →
      Derives tier env (.call old Builtin.len.text [x]) .int
  | arrayLit {old oldElem elem : Ty} {elems : List Expr} :
      tier.admits .array = true → elem ≠ .void → elems ≠ [] →
      (∀ e ∈ elems, Derives tier env e elem) →
      Derives tier env (.arrayLit old oldElem elems) (.array elem)
  | arrayFill {old elem : Ty} {length fill : Expr} :
      tier.admits .array = true → elem ≠ .void → Derives tier env length .int →
      Derives tier env fill elem → Derives tier env (.arrayFill old length fill) (.array elem)
  | index {old elem : Ty} {array index : Expr} :
      tier.admits .array = true → Derives tier env array (.array elem) →
      Derives tier env index .int → Derives tier env (.index old array index) elem

/-- A program may assign to a variable with this name: it is not empty, and it does not start with
the mark of names that the compiler makes up. -/
def MayAssign (name : String) : Prop := ∃ c rest, name.toList = c :: rest ∧ c ≠ '@'

/-- Statements lead from an environment to an environment.  The first assignment to a variable
fixes its type, later ones must agree with it, and an expression is judged in the environment of
the assignments in front of it. -/
inductive Derivation (judge : Env → Expr → Ty → Prop) (mayAssign : String → Prop) (tier : Tier) :
    Env → List Stmt → Env → Prop
  | nil {env : Env} : Derivation judge mayAssign tier env [] env
  | expr {env env' : Env} {x : Expr} {ty : Ty} {rest : List Stmt} :
      judge env x ty → Derivation judge mayAssign tier env rest env' →
      Derivation judge mayAssign tier env (.expr x :: rest) env'
  | first {env env' : Env} {name : String} {value : Expr} {ty : Ty} {rest : List Stmt} :
      mayAssign name → judge env value ty → ty ≠ .void → env.find? name = none →
      Derivation judge mayAssign tier (env ++ [⟨name, ty⟩]) rest env' →
      Derivation judge mayAssign tier env (.assign name value :: rest) env'
  | again {env env' : Env} {name : String} {value : Expr} {ty : Ty} {rest : List Stmt} :
      mayAssign name → judge env value ty → ty ≠ .void → env.find? name = some ty →
      Derivation judge mayAssign tier env rest env' →
      Derivation judge mayAssign tier env (.assign name value :: rest) env'
  | indexAssign {env env' : Env} {array index value : Expr} {elem : Ty} {rest : List Stmt} :
      tier.admits .array = true → judge env array (.array elem) → judge env index .int →
      judge env value elem → elem ≠ .void → Derivation judge mayAssign tier env rest env' →
      Derivation judge mayAssign tier env (.indexAssign array index value :: rest) env'
  | ifElse {env env₁ env₂ env' : Env} {cond : Expr} {thenBody elseBody rest : List Stmt} :
      judge env cond .bool → Derivation judge mayAssign tier env thenBody env₁ →
      Derivation judge mayAssign tier env₁ elseBody env₂ →
      Derivation judge mayAssign tier env₂ rest env' →
      Derivation judge mayAssign tier env (.ifElse cond thenBody elseBody :: rest) env'
  | whileDo {env env₁ env' : Env} {cond : Expr} {body rest : List Stmt} :
      judge env cond .bool → Derivation judge mayAssign tier env body env₁ →
      Derivation judge mayAssign tier env₁ rest env' →
      Derivation judge mayAssign tier env (.whileDo cond body :: rest) env'

/-- Every node of an expression carries the type, the only one, that the rules give to it. -/
def Carries (tier : Tier) (env : Env) (e : Expr) (ty : Ty) : Prop :=
  e.ty = ty ∧ ∀ x ∈ e.nodes, ∀ ty', Derives tier env x ty' ↔ x.ty = ty'

variable {tier : Tier} {env env' : Env} {e e' : Expr} {ty : Ty}

/-! ## Expressions -/

theorem Derives.admits_loop (h : Derives tier env e ty) : tier.admits .loop = true := by
  induction h with
  | int hloop | bool hloop | var hloop | input hloop => exact hloop
  | neg _ ih | not _ ih => exact ih
  | arith _ _ _ ih _ | order _ _ _ ih _ | logic _ _ _ ih _ => exact ih
  | equality _ _ _ _ ih _ => exact ih
  | identity _ _ ih _ => exact ih
  | print _ _ ih => exact ih
  | len harray | arrayLit harray | arrayFill harray | index harray =>
      exact Tier.admits_loop_of_array harray

/-- An expression that carries its types has them. -/
theorem HasType.derives (h : HasType tier env e ty) : Derives tier env e ty := by
  induction h with
  | int hloop => exact .int hloop
  | bool hloop => exact .bool hloop
  | var hloop hfind _ => exact .var hloop hfind
  | neg _ ih => exact .neg ih
  | not _ ih => exact .not ih
  | arith hop _ _ ihl ihr => exact .arith hop ihl ihr
  | order hop _ _ ihl ihr => exact .order hop ihl ihr
  | equality hop hty _ _ ihl ihr => exact .equality hop hty ihl ihr
  | logic hop _ _ ihl ihr => exact .logic hop ihl ihr
  | identity _ _ ihl ihr => exact .identity ihl ihr
  | print _ hvalue ih => exact .print ih hvalue.ne_void
  | input hloop => exact .input hloop
  | len harray _ ih => exact .len harray ih
  | arrayLit harray helem hne _ ih => exact .arrayLit harray helem.ne_void hne ih
  | arrayFill harray helem _ _ ihn ihv => exact .arrayFill harray helem.ne_void ihn ihv
  | index harray _ _ iha ihi => exact .index harray iha ihi

/-- Every node of an expression that carries its types does so too. -/
theorem HasType.of_mem_nodes (h : HasType tier env e ty) :
    ∀ x ∈ e.nodes, HasType tier env x x.ty := by
  have hself : ∀ {e : Expr} {ty : Ty}, HasType tier env e ty → HasType tier env e e.ty := by
    intro e ty h
    exact h.ty_eq.symm ▸ h
  induction h with
  | int hloop => simpa [Expr.nodes] using hself (.int hloop)
  | bool hloop => simpa [Expr.nodes] using hself (.bool hloop)
  | var hloop hfind hvalue => simpa [Expr.nodes] using hself (.var hloop hfind hvalue)
  | neg hx ih => exact List.forall_mem_cons.mpr ⟨.neg hx, ih⟩
  | not hx ih => exact List.forall_mem_cons.mpr ⟨.not hx, ih⟩
  | arith hop hl hr ihl ihr =>
      exact List.forall_mem_cons.mpr ⟨.arith hop hl hr, List.forall_mem_append.mpr ⟨ihl, ihr⟩⟩
  | order hop hl hr ihl ihr =>
      exact List.forall_mem_cons.mpr ⟨.order hop hl hr, List.forall_mem_append.mpr ⟨ihl, ihr⟩⟩
  | equality hop hty hl hr ihl ihr =>
      exact List.forall_mem_cons.mpr
        ⟨.equality hop hty hl hr, List.forall_mem_append.mpr ⟨ihl, ihr⟩⟩
  | logic hop hl hr ihl ihr =>
      exact List.forall_mem_cons.mpr ⟨.logic hop hl hr, List.forall_mem_append.mpr ⟨ihl, ihr⟩⟩
  | identity hl hr ihl ihr =>
      exact List.forall_mem_cons.mpr ⟨.identity hl hr, List.forall_mem_append.mpr ⟨ihl, ihr⟩⟩
  | print hx hvalue ih =>
      refine List.forall_mem_cons.mpr ⟨.print hx hvalue, ?_⟩
      simpa [Expr.listNodes] using ih
  | input hloop => exact List.forall_mem_cons.mpr ⟨.input hloop, by simp [Expr.listNodes]⟩
  | len harray hx ih =>
      refine List.forall_mem_cons.mpr ⟨.len harray hx, ?_⟩
      simpa [Expr.listNodes] using ih
  | arrayLit harray helem hne helems ih =>
      refine List.forall_mem_cons.mpr ⟨.arrayLit harray helem hne helems, ?_⟩
      intro x hx
      obtain ⟨e, he, hx⟩ := Expr.mem_listNodes.mp hx
      exact ih e he x hx
  | arrayFill harray helem hn hv ihn ihv =>
      exact List.forall_mem_cons.mpr
        ⟨.arrayFill harray helem hn hv, List.forall_mem_append.mpr ⟨ihn, ihv⟩⟩
  | index harray ha hi iha ihi =>
      exact List.forall_mem_cons.mpr
        ⟨.index harray ha hi, List.forall_mem_append.mpr ⟨iha, ihi⟩⟩

theorem StmtTyped.of_mem_nodes {s : Stmt} (h : StmtTyped tier env s) :
    ∀ x ∈ s.nodes, HasType tier env x x.ty := by
  induction h with
  | expr hx => exact hx.of_mem_nodes
  | assign _ _ hv => exact hv.of_mem_nodes
  | indexAssign _ ha hi hv =>
      intro x hx
      simp only [Stmt.nodes, List.mem_append] at hx
      rcases hx with (hx | hx) | hx
      · exact ha.of_mem_nodes x hx
      · exact hi.of_mem_nodes x hx
      · exact hv.of_mem_nodes x hx
  | ifElse hcond _ _ ihthen ihelse =>
      intro x hx
      simp only [Stmt.nodes, List.mem_append, Stmt.mem_listNodes] at hx
      rcases hx with (hx | ⟨s, hs, hx⟩) | ⟨s, hs, hx⟩
      · exact hcond.of_mem_nodes x hx
      · exact ihthen s hs x hx
      · exact ihelse s hs x hx
  | whileDo hcond _ ih =>
      intro x hx
      simp only [Stmt.nodes, List.mem_append, Stmt.mem_listNodes] at hx
      rcases hx with hx | ⟨s, hs, hx⟩
      · exact hcond.of_mem_nodes x hx
      · exact ih s hs x hx

/-- What is assigned to a variable has the type of the variable. -/
theorem StmtTyped.of_mem_assignments {s : Stmt} (h : StmtTyped tier env s) :
    ∀ x ∈ s.assignments, ∃ ty, env.find? x.1 = some ty ∧ HasType tier env x.2 ty := by
  induction h with
  | expr | indexAssign => simp [Stmt.assignments]
  | assign hfind _ hv =>
      intro x hx
      obtain rfl := List.mem_singleton.mp hx
      exact ⟨_, hfind, hv⟩
  | ifElse _ _ _ ihthen ihelse =>
      intro x hx
      simp only [Stmt.assignments, List.mem_append, Stmt.mem_listAssignments] at hx
      rcases hx with ⟨s, hs, hx⟩ | ⟨s, hs, hx⟩
      · exact ihthen s hs x hx
      · exact ihelse s hs x hx
  | whileDo _ _ ih =>
      intro x hx
      rw [Stmt.assignments, Stmt.mem_listAssignments] at hx
      obtain ⟨s, hs, hx⟩ := hx
      exact ih s hs x hx

/-! ## Types left out -/

theorem Derives.bare (h : Derives tier env e ty) : Derives tier env e.bare ty := by
  induction h with
  | int hloop => exact .int hloop
  | bool hloop => exact .bool hloop
  | var hloop hfind => exact .var hloop hfind
  | neg _ ih => exact .neg ih
  | not _ ih => exact .not ih
  | arith hop _ _ ihl ihr => exact .arith hop ihl ihr
  | order hop _ _ ihl ihr => exact .order hop ihl ihr
  | equality hop hty _ _ ihl ihr => exact .equality hop hty ihl ihr
  | logic hop _ _ ihl ihr => exact .logic hop ihl ihr
  | identity _ _ ihl ihr => exact .identity ihl ihr
  | print _ hvoid ih => exact .print ih hvoid
  | input hloop => exact .input hloop
  | len harray _ ih => exact .len harray ih
  | arrayLit harray hvoid hne _ ih =>
      rw [Expr.bare, Expr.listBare_eq]
      apply Derives.arrayLit harray hvoid
      · simpa using hne
      · simpa using ih
  | arrayFill harray hvoid _ _ ihn ihv => exact .arrayFill harray hvoid ihn ihv
  | index harray _ _ iha ihi => exact .index harray iha ihi

theorem Derives.of_bare (h : Derives tier env e.bare ty) : Derives tier env e ty := by
  induction e generalizing ty with
  | missing => exact h
  | int old value =>
      rw [Expr.bare] at h
      cases h with
      | int hloop => exact .int hloop
  | bool old value =>
      rw [Expr.bare] at h
      cases h with
      | bool hloop => exact .bool hloop
  | var old name =>
      rw [Expr.bare] at h
      cases h with
      | var hloop hfind => exact .var hloop hfind
  | unary old op x ih =>
      rw [Expr.bare] at h
      cases h with
      | neg hx => exact .neg (ih hx)
      | not hx => exact .not (ih hx)
  | binary old op left right ihl ihr =>
      rw [Expr.bare] at h
      cases h with
      | arith hop hl hr => exact .arith hop (ihl hl) (ihr hr)
      | order hop hl hr => exact .order hop (ihl hl) (ihr hr)
      | equality hop hty hl hr => exact .equality hop hty (ihl hl) (ihr hr)
      | logic hop hl hr => exact .logic hop (ihl hl) (ihr hr)
      | identity hl hr => exact .identity (ihl hl) (ihr hr)
  | call old name args ih =>
      rw [Expr.bare, Expr.listBare_eq] at h
      generalize hbares : args.map Expr.bare = bares at h
      cases h with
      | print hx hvoid =>
          obtain ⟨a, rfl, rfl⟩ := List.map_eq_singleton_iff.mp hbares
          exact .print (ih a (by simp) hx) hvoid
      | input hloop =>
          obtain rfl := List.map_eq_nil_iff.mp hbares
          exact .input hloop
      | len harray hx =>
          obtain ⟨a, rfl, rfl⟩ := List.map_eq_singleton_iff.mp hbares
          exact .len harray (ih a (by simp) hx)
  | arrayLit old oldElem elems ih =>
      rw [Expr.bare, Expr.listBare_eq] at h
      cases h with
      | arrayLit harray hvoid hne helems =>
          apply Derives.arrayLit harray hvoid
          · simpa using hne
          · exact fun e he => ih e he (helems e.bare (List.mem_map_of_mem he))
  | arrayFill old length fill ihn ihv =>
      rw [Expr.bare] at h
      cases h with
      | arrayFill harray hvoid hn hv => exact .arrayFill harray hvoid (ihn hn) (ihv hv)
  | index old array index iha ihi =>
      rw [Expr.bare] at h
      cases h with
      | index harray ha hi => exact .index harray (iha ha) (ihi hi)

/-- The types on the nodes of an expression play no part in its derivations. -/
theorem Derives.congr (h : Derives tier env e ty) (hbare : e'.bare = e.bare) :
    Derives tier env e' ty :=
  (hbare ▸ h.bare).of_bare

/-! ## Statements -/

variable {judge judge' : Env → Expr → Ty → Prop} {mayAssign : String → Prop}
variable {stmts stmts' : List Stmt}

/-- Derivations of two rows of statements, one behind the other. -/
theorem Derivation.append {env'' : Env} (h : Derivation judge mayAssign tier env stmts env')
    (h' : Derivation judge mayAssign tier env' stmts' env'') :
    Derivation judge mayAssign tier env (stmts ++ stmts') env'' := by
  induction h with
  | nil => exact h'
  | expr hx _ ih => exact .expr hx (ih h')
  | first hname hv hvoid hfind _ ih => exact .first hname hv hvoid hfind (ih h')
  | again hname hv hvoid hfind _ ih => exact .again hname hv hvoid hfind (ih h')
  | indexAssign harray ha hi hv hvoid _ ih => exact .indexAssign harray ha hi hv hvoid (ih h')
  | ifElse hcond hthen helse _ _ _ ih => exact .ifElse hcond hthen helse (ih h')
  | whileDo hcond hbody _ _ ih => exact .whileDo hcond hbody (ih h')

/-- A derivation for a program with other types on its nodes. -/
theorem Derivation.congr (h : Derivation judge mayAssign tier env stmts env')
    (hjudge : ∀ {env e e' ty}, e'.bare = e.bare → judge env e ty → judge' env e' ty)
    (hbare : Stmt.listBare stmts' = Stmt.listBare stmts) :
    Derivation judge' mayAssign tier env stmts' env' := by
  have hcons : ∀ {s : Stmt} {rest stmts' : List Stmt},
      Stmt.listBare stmts' = Stmt.listBare (s :: rest) →
      ∃ s' rest', stmts' = s' :: rest' ∧ s'.bare = s.bare ∧
        Stmt.listBare rest' = Stmt.listBare rest := by
    intro s rest stmts' heq
    cases stmts' with
    | nil => exact absurd heq (by simp [Stmt.listBare])
    | cons s' rest' =>
        rw [Stmt.listBare, Stmt.listBare, List.cons.injEq] at heq
        exact ⟨s', rest', rfl, heq.1, heq.2⟩
  induction h generalizing stmts' with
  | nil =>
      cases stmts' with
      | nil => exact .nil
      | cons => exact absurd hbare (by simp [Stmt.listBare])
  | expr hx _ ih =>
      obtain ⟨s', rest', rfl, hs, hrest⟩ := hcons hbare
      cases s' with
      | expr x' =>
          rw [Stmt.bare, Stmt.bare, Stmt.expr.injEq] at hs
          exact .expr (hjudge hs hx) (ih hrest)
      | _ => exact absurd hs (by simp [Stmt.bare])
  | first hname hv hvoid hfind _ ih =>
      obtain ⟨s', rest', rfl, hs, hrest⟩ := hcons hbare
      cases s' with
      | assign name' value' =>
          rw [Stmt.bare, Stmt.bare, Stmt.assign.injEq] at hs
          obtain ⟨rfl, hs⟩ := hs
          exact .first hname (hjudge hs hv) hvoid hfind (ih hrest)
      | _ => exact absurd hs (by simp [Stmt.bare])
  | again hname hv hvoid hfind _ ih =>
      obtain ⟨s', rest', rfl, hs, hrest⟩ := hcons hbare
      cases s' with
      | assign name' value' =>
          rw [Stmt.bare, Stmt.bare, Stmt.assign.injEq] at hs
          obtain ⟨rfl, hs⟩ := hs
          exact .again hname (hjudge hs hv) hvoid hfind (ih hrest)
      | _ => exact absurd hs (by simp [Stmt.bare])
  | indexAssign harray ha hi hv hvoid _ ih =>
      obtain ⟨s', rest', rfl, hs, hrest⟩ := hcons hbare
      cases s' with
      | indexAssign array' index' value' =>
          rw [Stmt.bare, Stmt.bare, Stmt.indexAssign.injEq] at hs
          obtain ⟨hsa, hsi, hsv⟩ := hs
          exact .indexAssign harray (hjudge hsa ha) (hjudge hsi hi) (hjudge hsv hv) hvoid (ih hrest)
      | _ => exact absurd hs (by simp [Stmt.bare])
  | ifElse hcond _ _ _ ihthen ihelse ih =>
      obtain ⟨s', rest', rfl, hs, hrest⟩ := hcons hbare
      cases s' with
      | ifElse cond' thenBody' elseBody' =>
          rw [Stmt.bare, Stmt.bare, Stmt.ifElse.injEq] at hs
          obtain ⟨hsc, hst, hse⟩ := hs
          exact .ifElse (hjudge hsc hcond) (ihthen hst) (ihelse hse) (ih hrest)
      | _ => exact absurd hs (by simp [Stmt.bare])
  | whileDo hcond _ _ ihbody ih =>
      obtain ⟨s', rest', rfl, hs, hrest⟩ := hcons hbare
      cases s' with
      | whileDo cond' body' =>
          rw [Stmt.bare, Stmt.bare, Stmt.whileDo.injEq] at hs
          obtain ⟨hsc, hsb⟩ := hs
          exact .whileDo (hjudge hsc hcond) (ihbody hsb) (ih hrest)
      | _ => exact absurd hs (by simp [Stmt.bare])

theorem Derivation.mono (h : Derivation judge mayAssign tier env stmts env')
    (hjudge : ∀ {env e ty}, judge env e ty → judge' env e ty) :
    Derivation judge' mayAssign tier env stmts env' := by
  induction h with
  | nil => exact .nil
  | expr hx _ ih => exact .expr (hjudge hx) ih
  | first hname hv hvoid hfind _ ih => exact .first hname (hjudge hv) hvoid hfind ih
  | again hname hv hvoid hfind _ ih => exact .again hname (hjudge hv) hvoid hfind ih
  | indexAssign harray ha hi hv hvoid _ ih =>
      exact .indexAssign harray (hjudge ha) (hjudge hi) (hjudge hv) hvoid ih
  | ifElse hcond _ _ _ ihthen ihelse ih => exact .ifElse (hjudge hcond) ihthen ihelse ih
  | whileDo hcond _ _ ihbody ih => exact .whileDo (hjudge hcond) ihbody ih

/-- Statements that leave the environment as it is, one behind the other. -/
theorem derivation_of_forall
    (h : ∀ s ∈ stmts, Derivation judge mayAssign tier env [s] env) :
    Derivation judge mayAssign tier env stmts env := by
  induction stmts with
  | nil => exact .nil
  | cons s rest ih =>
      obtain ⟨hs, hrest⟩ := List.forall_mem_cons.mp h
      exact hs.append (ih hrest)

/-- In an environment with all variables, well-typed statements are derivable without a condition
on the names of variables. -/
theorem StmtTyped.derivation {s : Stmt} (h : StmtTyped tier env s) :
    Derivation (HasType tier) (fun _ => True) tier env [s] env := by
  induction h with
  | expr hx => exact .expr hx .nil
  | assign hfind hvalue hv => exact .again trivial hv hvalue.ne_void hfind .nil
  | indexAssign harray ha hi hv =>
      exact .indexAssign harray ha hi hv ha.elem_isValue.ne_void .nil
  | ifElse hcond _ _ ihthen ihelse =>
      exact .ifElse hcond (derivation_of_forall ihthen) (derivation_of_forall ihelse) .nil
  | whileDo hcond _ ih => exact .whileDo hcond (derivation_of_forall ih) .nil

/-- The variables after statements are those before and those that the statements assign to. -/
theorem Derivation.mem_names (h : Derivation judge mayAssign tier env stmts env')
    (name : String) :
    name ∈ env'.map Binding.name ↔
      name ∈ env.map Binding.name ∨ name ∈ Stmt.listTargets stmts := by
  unfold Stmt.listTargets
  induction h with
  | nil => simp [Stmt.listAssignments]
  | expr _ _ ih => simpa [Stmt.listAssignments, Stmt.assignments] using ih
  | first _ _ _ _ _ ih => simp [Stmt.listAssignments, Stmt.assignments, ih, or_assoc]
  | again _ _ _ hfind _ ih =>
      have hmem := List.mem_map_of_mem (f := Binding.name) (mem_of_find? hfind)
      rw [ih]
      simp only [Stmt.listAssignments, Stmt.assignments, List.map_append, List.map_singleton,
        List.mem_append, List.mem_singleton]
      constructor
      · rintro (hin | hin)
        · exact Or.inl hin
        · exact Or.inr (Or.inr hin)
      · rintro (hin | rfl | hin)
        · exact Or.inl hin
        · exact Or.inl hmem
        · exact Or.inr hin
  | indexAssign _ _ _ _ _ _ ih => simpa [Stmt.listAssignments, Stmt.assignments] using ih
  | ifElse _ _ _ _ ihthen ihelse ih =>
      rw [ih, ihelse, ihthen]
      simp only [Stmt.listAssignments, Stmt.assignments, List.map_append, List.mem_append, or_assoc]
  | whileDo _ _ _ ihbody ih =>
      rw [ih, ihbody]
      simp only [Stmt.listAssignments, Stmt.assignments, List.map_append, List.mem_append, or_assoc]

end ArrayLang.Typing
