import ArrayLang.Proofs.Typing.Rules
import ArrayLang.Typing.Check

/-!
# The checker is sound

What the checker returns is well typed in the environment that it returns, and it is the program
that was checked, up to types.  Every variable of that environment has a name that a program may
assign to, and no two have the same name.
-/

namespace ArrayLang.Typing

open Source

variable {tier : Tier} {env env' : Env}

theorem ok_of_bind {ε α β : Type} {x : Except ε α} {f : α → Except ε β} {b : β}
    (h : x >>= f = .ok b) : ∃ a, x = .ok a ∧ f a = .ok b := by
  cases x with
  | error e => exact absurd h (by simp [bind, Except.bind])
  | ok a => exact ⟨a, rfl, h⟩

/-- The variables of an environment have types of values and different names that a program may
assign to. -/
structure EnvOk (env : Env) : Prop where
  value : ∀ name ty, env.find? name = some ty → IsValue ty
  name : ∀ name ty, env.find? name = some ty → isVariableName name = true
  distinct : (env.map Binding.name).Nodup

theorem mem_of_find? {name : String} {ty : Ty} (h : env.find? name = some ty) :
    ⟨name, ty⟩ ∈ env := by
  induction env with
  | nil => exact absurd h (by simp [Env.find?])
  | cons b rest ih =>
      rw [Env.find?] at h
      split at h
      · next hname =>
          obtain rfl := hname
          obtain rfl := Option.some.inj h
          exact List.mem_cons_self
      · exact List.mem_cons_of_mem _ (ih h)

theorem notMem_of_find? {name : String} (h : env.find? name = none) :
    name ∉ env.map Binding.name := by
  induction env with
  | nil => simp
  | cons b rest ih =>
      rw [Env.find?] at h
      split at h
      · exact absurd h (by simp)
      · next hname =>
          rw [List.map_cons, List.mem_cons, not_or]
          exact ⟨Ne.symm hname, ih h⟩

theorem find?_of_mem {b : Binding} (hdistinct : (env.map Binding.name).Nodup) (h : b ∈ env) :
    env.find? b.name = some b.ty := by
  induction env with
  | nil => exact absurd h List.not_mem_nil
  | cons c rest ih =>
      obtain ⟨hc, hrest⟩ := List.nodup_cons.mp hdistinct
      rw [Env.find?]
      rcases List.mem_cons.mp h with rfl | hmem
      · rw [if_pos rfl]
      · have hne : c.name ≠ b.name := fun heq => hc (heq ▸ List.mem_map_of_mem hmem)
        rw [if_neg hne]
        exact ih hrest hmem

theorem nodup_names_concat {b : Binding} (hdistinct : (env.map Binding.name).Nodup)
    (hnew : b.name ∉ env.map Binding.name) : ((env ++ [b]).map Binding.name).Nodup := by
  rw [List.map_append, List.map_singleton, List.nodup_append]
  refine ⟨hdistinct, by simp, ?_⟩
  intro name hname other hother heq
  rw [heq, List.mem_singleton.mp hother] at hname
  exact hnew hname

/-- An environment has all variables of another. -/
def Extends (env env' : Env) : Prop :=
  ∀ name ty, env.find? name = some ty → env'.find? name = some ty

theorem Extends.refl (env : Env) : Extends env env := fun _ _ h => h

theorem Extends.trans {env'' : Env} (h : Extends env env') (h' : Extends env' env'') :
    Extends env env'' :=
  fun name ty hfind => h' name ty (h name ty hfind)

theorem find?_append (env env' : Env) (name : String) :
    Env.find? (env ++ env') name = (env.find? name).or (env'.find? name) := by
  induction env with
  | nil => rfl
  | cons b rest ih =>
      rw [List.cons_append, Env.find?, Env.find?]
      split
      · rfl
      · exact ih

theorem extends_append (env env' : Env) : Extends env (env ++ env') := by
  intro name ty hfind
  rw [find?_append, hfind, Option.some_or]

theorem HasType.extend {e : Expr} {ty : Ty} (h : HasType tier env e ty) (hext : Extends env env') :
    HasType tier env' e ty := by
  induction h with
  | int hloop => exact .int hloop
  | bool hloop => exact .bool hloop
  | var hloop hfind hvalue => exact .var hloop (hext _ _ hfind) hvalue
  | neg _ ih => exact .neg ih
  | not _ ih => exact .not ih
  | arith hop _ _ ihl ihr => exact .arith hop ihl ihr
  | order hop _ _ ihl ihr => exact .order hop ihl ihr
  | equality hop hty _ _ ihl ihr => exact .equality hop hty ihl ihr
  | logic hop _ _ ihl ihr => exact .logic hop ihl ihr
  | identity _ _ ihl ihr => exact .identity ihl ihr
  | print _ hvalue ih => exact .print ih hvalue
  | input hloop => exact .input hloop
  | len harray _ ih => exact .len harray ih
  | arrayLit harray helem hne _ ih => exact .arrayLit harray helem hne ih
  | arrayFill harray helem _ _ ihl ihf => exact .arrayFill harray helem ihl ihf
  | index harray _ _ iha ihi => exact .index harray iha ihi

theorem StmtTyped.extend {s : Stmt} (h : StmtTyped tier env s) (hext : Extends env env') :
    StmtTyped tier env' s := by
  induction h with
  | expr hx => exact .expr (hx.extend hext)
  | assign hfind hvalue hx => exact .assign (hext _ _ hfind) hvalue (hx.extend hext)
  | indexAssign harray ha hi hv =>
      exact .indexAssign harray (ha.extend hext) (hi.extend hext) (hv.extend hext)
  | ifElse hcond _ _ ihthen ihelse => exact .ifElse (hcond.extend hext) ihthen ihelse
  | whileDo hcond _ ih => exact .whileDo (hcond.extend hext) ih

/-! ## Expressions -/

/-- An expression is well typed, and it is another one with types filled in. -/
structure Types (tier : Tier) (env : Env) (e e' : Expr) : Prop where
  typed : HasType tier env e' e'.ty
  bare : e'.bare = e.bare

/-- What a check of an expression returns is the expression with types. -/
def Sound (tier : Tier) (env : Env) (e : Expr) : Prop :=
  ∀ e', checkExpr tier env e = .ok e' → Types tier env e e'

theorem admits_of_allowed {what : String} {node : Tier} (h : allowed tier what node = .ok ()) :
    tier.admits node = true := by
  by_cases hadmits : tier.admits node = true
  · exact hadmits
  · rw [allowed, if_neg hadmits] at h
    exact absurd h (by simp)

theorem of_hasValue {e e' : Expr} (h : hasValue e = .ok e') : e = e' ∧ e.ty ≠ .void := by
  by_cases hvoid : e.ty = .void
  · rw [hasValue, if_pos hvoid] at h
    exact absurd h (by simp)
  · rw [hasValue, if_neg hvoid] at h
    exact ⟨Except.ok.inj h, hvoid⟩

theorem of_hasType {what : String} {want : Ty} {e e' : Expr} (h : hasType what want e = .ok e') :
    e = e' ∧ e.ty = want := by
  obtain ⟨x, hvalue, h⟩ := ok_of_bind h
  obtain ⟨rfl, -⟩ := of_hasValue hvalue
  by_cases hty : e.ty = want
  · rw [if_pos hty] at h
    exact ⟨Except.ok.inj h, hty⟩
  · rw [if_neg hty] at h
    exact absurd h (by simp)

theorem HasType.isValue {e : Expr} {ty : Ty} (h : HasType tier env e ty) (hvoid : ty ≠ .void) :
    IsValue ty :=
  h.isValue_or_void.resolve_right hvoid

theorem Sound.value {e x e' : Expr} (h : Sound tier env e)
    (hx : checkExpr tier env e = .ok x) (hvalue : hasValue x = .ok e') :
    Types tier env e e' ∧ IsValue e'.ty := by
  obtain ⟨rfl, hvoid⟩ := of_hasValue hvalue
  exact ⟨h x hx, (h x hx).typed.isValue hvoid⟩

theorem Sound.typed {what : String} {want : Ty} {e x e' : Expr} (h : Sound tier env e)
    (hx : checkExpr tier env e = .ok x) (hty : hasType what want x = .ok e') :
    HasType tier env e' want ∧ e'.bare = e.bare := by
  obtain ⟨rfl, rfl⟩ := of_hasType hty
  exact ⟨(h x hx).typed, (h x hx).bare⟩

/-- A checked operand with what the checker found out about it. -/
structure IsOperand (tier : Tier) (env : Env) (op : BinaryOp) (e : Expr) : Prop where
  typed : HasType tier env e e.ty
  value : IsValue e.ty
  fixed : ∀ ty, operandTy? op = some ty → e.ty = ty

theorem Sound.operand {op : BinaryOp} {e x e' : Expr} (h : Sound tier env e)
    (hx : checkExpr tier env e = .ok x) (hoperand : operand op x = .ok e') :
    IsOperand tier env op e' ∧ e'.bare = e.bare := by
  rw [Typing.operand] at hoperand
  cases hty : operandTy? op with
  | none =>
      rw [hty] at hoperand
      obtain ⟨htypes, hvalue⟩ := h.value hx hoperand
      refine ⟨⟨htypes.typed, hvalue, fun ty h => ?_⟩, htypes.bare⟩
      exact absurd (hty.symm.trans h) (by simp)
  | some want =>
      rw [hty] at hoperand
      obtain ⟨rfl, rfl⟩ := of_hasType hoperand
      obtain ⟨htyped, hbare⟩ := h x hx
      refine ⟨⟨htyped, htyped.isValue ?_, fun ty h => Option.some.inj (hty.symm.trans h)⟩, hbare⟩
      cases op <;> simp [operandTy?] at hty <;> simp [← hty]

theorem IsOperand.hasType {op : BinaryOp} {e : Expr} {ty : Ty} (h : IsOperand tier env op e)
    (hty : operandTy? op = some ty) : HasType tier env e ty := by
  have htyped := h.typed
  rwa [h.fixed ty hty] at htyped

theorem IsValue.of_isArray {ty : Ty} (h : IsValue ty) (harray : ty.isArray = true) :
    ∃ elem, ty = .array elem := by
  cases h with
  | int | bool => exact absurd harray (by simp [Ty.isArray])
  | array _ => exact ⟨_, rfl⟩

theorem IsValue.of_not_isArray {ty : Ty} (h : IsValue ty) (harray : ty.isArray = false) :
    ty ∈ [.int, .bool] := by
  cases h with
  | int | bool => simp
  | array _ => exact absurd harray (by simp [Ty.isArray])

theorem equality_typed {op : BinaryOp} {left right : Expr} {ty : Ty} (hop : op ∈ [.eq, .ne])
    (hleft : IsOperand tier env op left) (hright : IsOperand tier env op right)
    (h : (if left.ty.isArray || right.ty.isArray then .error (.equalityOfArrays op)
      else if left.ty = right.ty then .ok .bool
      else .error (.operandsDiffer op left.ty right.ty) : Check Ty) = .ok ty) :
    HasType tier env (.binary ty op left right) ty := by
  by_cases harray : (left.ty.isArray || right.ty.isArray) = true
  · rw [if_pos harray] at h
    exact absurd h (by simp)
  · rw [if_neg harray] at h
    by_cases hsame : left.ty = right.ty
    · rw [if_pos hsame] at h
      obtain rfl := Except.ok.inj h
      rw [Bool.or_eq_true, not_or, Bool.not_eq_true] at harray
      exact .equality hop (hleft.value.of_not_isArray harray.1) hleft.typed
        (hsame ▸ hright.typed)
    · rw [if_neg hsame] at h
      exact absurd h (by simp)

/-- The type that the checker gives to an operator follows from the rules. -/
theorem binaryTy_sound {op : BinaryOp} {left right : Expr} {ty : Ty}
    (hleft : IsOperand tier env op left) (hright : IsOperand tier env op right)
    (h : binaryTy op left right = .ok ty) :
    HasType tier env (.binary ty op left right) ty := by
  cases op with
  | add | sub | mul =>
      obtain rfl := Except.ok.inj h
      exact .arith (by simp) (hleft.hasType rfl) (hright.hasType rfl)
  | lt | le | gt | ge =>
      obtain rfl := Except.ok.inj h
      exact .order (by simp) (hleft.hasType rfl) (hright.hasType rfl)
  | and | or =>
      obtain rfl := Except.ok.inj h
      exact .logic (by simp) (hleft.hasType rfl) (hright.hasType rfl)
  | eq => exact equality_typed (by simp) hleft hright h
  | ne => exact equality_typed (by simp) hleft hright h
  | is =>
      rw [binaryTy] at h
      by_cases harray : (left.ty.isArray && right.ty.isArray) = true
      · rw [if_pos harray] at h
        obtain rfl := Except.ok.inj h
        obtain ⟨hl, hr⟩ := Bool.and_eq_true_iff.mp harray
        obtain ⟨elem, hl⟩ := hleft.value.of_isArray hl
        obtain ⟨elem', hr⟩ := hright.value.of_isArray hr
        exact .identity (hl ▸ hleft.typed) (hr ▸ hright.typed)
      · rw [if_neg harray] at h
        exact absurd h (by simp)
  | unknown code => exact absurd h (by simp [binaryTy])

theorem Sound.binary {ty : Ty} {op : BinaryOp} {left right : Expr}
    (hleft : Sound tier env left) (hright : Sound tier env right) :
    Sound tier env (.binary ty op left right) := by
  intro e' h
  by_cases hop : ∃ code, op = .unknown code
  · obtain ⟨code, rfl⟩ := hop
    rw [checkExpr] at h
    obtain ⟨_, -, h⟩ := ok_of_bind h
    exact absurd h (by simp)
  · rw [checkExpr] at h
    · obtain ⟨_, -, h⟩ := ok_of_bind h
      obtain ⟨x, hx, h⟩ := ok_of_bind h
      obtain ⟨l, hl, h⟩ := ok_of_bind h
      obtain ⟨y, hy, h⟩ := ok_of_bind h
      obtain ⟨r, hr, h⟩ := ok_of_bind h
      obtain ⟨ty, hty, h⟩ := ok_of_bind h
      obtain rfl := Except.ok.inj h
      obtain ⟨hl', hlbare⟩ := hleft.operand hx hl
      obtain ⟨hr', hrbare⟩ := hright.operand hy hr
      exact ⟨binaryTy_sound hl' hr' hty, by rw [Expr.bare, Expr.bare, hlbare, hrbare]⟩
    · intro code heq
      exact hop ⟨code, heq⟩

theorem Sound.unary {ty : Ty} {op : UnaryOp} {x : Expr} (hx : Sound tier env x) :
    Sound tier env (.unary ty op x) := by
  intro e' h
  cases op with
  | neg =>
      rw [checkExpr] at h
      obtain ⟨_, -, h⟩ := ok_of_bind h
      obtain ⟨y, hy, h⟩ := ok_of_bind h
      obtain ⟨z, hz, h⟩ := ok_of_bind h
      obtain rfl := Except.ok.inj h
      obtain ⟨htyped, hbare⟩ := hx.typed hy hz
      exact ⟨.neg htyped, by rw [Expr.bare, Expr.bare, hbare]⟩
  | not =>
      rw [checkExpr] at h
      obtain ⟨_, -, h⟩ := ok_of_bind h
      obtain ⟨y, hy, h⟩ := ok_of_bind h
      obtain ⟨z, hz, h⟩ := ok_of_bind h
      obtain rfl := Except.ok.inj h
      obtain ⟨htyped, hbare⟩ := hx.typed hy hz
      exact ⟨.not htyped, by rw [Expr.bare, Expr.bare, hbare]⟩
  | unknown code =>
      rw [checkExpr] at h
      obtain ⟨_, -, h⟩ := ok_of_bind h
      exact absurd h (by simp)

theorem builtin_eq_text {name : String} {f : Builtin} (h : Builtin.ofText? name = some f) :
    name = f.text := by
  unfold Builtin.ofText? at h
  split at h
  · obtain rfl := Option.some.inj h
    assumption
  · split at h
    · obtain rfl := Option.some.inj h
      assumption
    · split at h
      · obtain rfl := Option.some.inj h
        assumption
      · exact absurd h (by simp)

theorem Sound.call {ty : Ty} {name : String} {args : List Expr}
    (hargs : ∀ a ∈ args, Sound tier env a) : Sound tier env (.call ty name args) := by
  intro e' h
  match args, hargs with
  | [], _ =>
      rw [checkExpr] at h
      obtain ⟨_, hallowed, h⟩ := ok_of_bind h
      cases hf : Builtin.ofText? name with
      | none => exact absurd h (by simp [hf])
      | some f =>
          obtain rfl := builtin_eq_text hf
          cases f with
          | print => exact absurd h (by simp [hf])
          | inputInt =>
              rw [hf] at h
              obtain rfl := Except.ok.inj h
              exact ⟨.input (admits_of_allowed hallowed), rfl⟩
          | len =>
              rw [hf] at h
              obtain ⟨_, -, h⟩ := ok_of_bind h
              exact absurd h (by simp)
  | [x], hargs =>
      have hx := hargs x (by simp)
      rw [checkExpr] at h
      obtain ⟨_, -, h⟩ := ok_of_bind h
      cases hf : Builtin.ofText? name with
      | none => exact absurd h (by simp [hf])
      | some f =>
          obtain rfl := builtin_eq_text hf
          cases f with
          | print =>
              rw [hf] at h
              obtain ⟨y, hy, h⟩ := ok_of_bind h
              obtain ⟨z, hz, h⟩ := ok_of_bind h
              obtain rfl := Except.ok.inj h
              obtain ⟨⟨htyped, hbare⟩, hvalue⟩ := hx.value hy hz
              exact ⟨.print htyped hvalue, by simp [Expr.bare, Expr.listBare, hbare]⟩
          | inputInt => exact absurd h (by simp [hf])
          | len =>
              rw [hf] at h
              obtain ⟨_, hallowed, h⟩ := ok_of_bind h
              obtain ⟨y, hy, h⟩ := ok_of_bind h
              obtain ⟨z, hz, h⟩ := ok_of_bind h
              obtain ⟨⟨htyped, hbare⟩, hvalue⟩ := hx.value hy hz
              by_cases harray : z.ty.isArray = true
              · rw [if_pos harray] at h
                obtain rfl := Except.ok.inj h
                obtain ⟨elem, hty⟩ := hvalue.of_isArray harray
                refine ⟨.len (admits_of_allowed hallowed) (hty ▸ htyped), ?_⟩
                simp [Expr.bare, Expr.listBare, hbare]
              · rw [if_neg harray] at h
                exact absurd h (by simp)
  | x :: y :: rest, _ =>
      rw [checkExpr] at h
      · obtain ⟨_, -, h⟩ := ok_of_bind h
        cases hf : Builtin.ofText? name with
        | none => exact absurd h (by simp [hf])
        | some f =>
            cases f with
            | print | inputInt => exact absurd h (by simp [hf])
            | len =>
                rw [hf] at h
                obtain ⟨_, -, h⟩ := ok_of_bind h
                exact absurd h (by simp)
      · simp
      · simp

theorem checkElems_sound {want : Ty} {position : Nat} {elems elems' : List Expr}
    (helems : ∀ e ∈ elems, Sound tier env e)
    (h : checkElems tier env want position elems = .ok elems') :
    (∀ e ∈ elems', HasType tier env e want) ∧ Expr.listBare elems' = Expr.listBare elems := by
  induction elems generalizing position elems' with
  | nil =>
      rw [checkElems] at h
      obtain rfl := Except.ok.inj h
      exact ⟨by simp, rfl⟩
  | cons e rest ih =>
      obtain ⟨he, hrest⟩ := List.forall_mem_cons.mp helems
      rw [checkElems] at h
      obtain ⟨x, hx, h⟩ := ok_of_bind h
      obtain ⟨y, hy, h⟩ := ok_of_bind h
      by_cases hty : y.ty = want
      · rw [if_pos hty] at h
        obtain ⟨rest', hrest', h⟩ := ok_of_bind h
        obtain rfl := Except.ok.inj h
        obtain ⟨⟨htyped, hbare⟩, -⟩ := he.value hx hy
        obtain ⟨htypeds, hbares⟩ := ih hrest hrest'
        refine ⟨List.forall_mem_cons.mpr ⟨hty ▸ htyped, htypeds⟩, ?_⟩
        rw [Expr.listBare, Expr.listBare, hbare, hbares]
      · rw [if_neg hty] at h
        exact absurd h (by simp)

theorem elemTy_eq {array : Expr} {elem : Ty} (h : elemTy array = .ok elem) :
    array.ty = .array elem := by
  unfold elemTy at h
  split at h
  · rename_i hty
    rw [hty, Except.ok.inj h]
  · exact absurd h (by simp)

/-- An expression that the checker accepts is well typed. -/
theorem checkExpr_sound (henv : EnvOk env) (e : Expr) : Sound tier env e := by
  induction e with
  | missing =>
      intro e' h
      rw [checkExpr] at h
      exact absurd h (by simp)
  | int ty value =>
      intro e' h
      rw [checkExpr] at h
      obtain ⟨_, hallowed, h⟩ := ok_of_bind h
      obtain rfl := Except.ok.inj h
      exact ⟨.int (admits_of_allowed hallowed), rfl⟩
  | bool ty value =>
      intro e' h
      rw [checkExpr] at h
      obtain ⟨_, hallowed, h⟩ := ok_of_bind h
      obtain rfl := Except.ok.inj h
      exact ⟨.bool (admits_of_allowed hallowed), rfl⟩
  | var ty name =>
      intro e' h
      rw [checkExpr] at h
      obtain ⟨_, hallowed, h⟩ := ok_of_bind h
      cases hfind : env.find? name with
      | none => exact absurd h (by simp [hfind])
      | some found =>
          rw [hfind] at h
          obtain rfl := Except.ok.inj h
          exact ⟨.var (admits_of_allowed hallowed) hfind (henv.value name found hfind), rfl⟩
  | unary ty op x ih => exact ih.unary
  | binary ty op left right ihl ihr => exact ihl.binary ihr
  | call ty name args ih => exact Sound.call ih
  | arrayLit ty elemTy elems ih =>
      intro e' h
      cases elems with
      | nil =>
          rw [checkExpr] at h
          obtain ⟨_, -, h⟩ := ok_of_bind h
          exact absurd h (by simp)
      | cons first rest =>
          obtain ⟨ihfirst, ihrest⟩ := List.forall_mem_cons.mp ih
          rw [checkExpr] at h
          obtain ⟨_, hallowed, h⟩ := ok_of_bind h
          obtain ⟨x, hx, h⟩ := ok_of_bind h
          obtain ⟨y, hy, h⟩ := ok_of_bind h
          obtain ⟨rest', hrest', h⟩ := ok_of_bind h
          obtain rfl := Except.ok.inj h
          obtain ⟨⟨htyped, hbare⟩, hvalue⟩ := ihfirst.value hx hy
          obtain ⟨htypeds, hbares⟩ := checkElems_sound ihrest hrest'
          refine ⟨.arrayLit (admits_of_allowed hallowed) hvalue (by simp) ?_, ?_⟩
          · exact List.forall_mem_cons.mpr ⟨htyped, htypeds⟩
          · rw [Expr.bare, Expr.bare, Expr.listBare, Expr.listBare, hbare, hbares]
  | arrayFill ty length fill ihl ihf =>
      intro e' h
      rw [checkExpr] at h
      obtain ⟨_, hallowed, h⟩ := ok_of_bind h
      obtain ⟨x, hx, h⟩ := ok_of_bind h
      obtain ⟨n, hn, h⟩ := ok_of_bind h
      obtain ⟨y, hy, h⟩ := ok_of_bind h
      obtain ⟨v, hv, h⟩ := ok_of_bind h
      obtain rfl := Except.ok.inj h
      obtain ⟨hltyped, hlbare⟩ := ihl.typed hx hn
      obtain ⟨⟨htyped, hbare⟩, hvalue⟩ := ihf.value hy hv
      refine ⟨.arrayFill (admits_of_allowed hallowed) hvalue hltyped htyped, ?_⟩
      rw [Expr.bare, Expr.bare, hlbare, hbare]
  | index ty array index iha ihi =>
      intro e' h
      rw [checkExpr] at h
      obtain ⟨_, hallowed, h⟩ := ok_of_bind h
      obtain ⟨x, hx, h⟩ := ok_of_bind h
      obtain ⟨a, ha, h⟩ := ok_of_bind h
      obtain ⟨elem, helem, h⟩ := ok_of_bind h
      obtain ⟨y, hy, h⟩ := ok_of_bind h
      obtain ⟨i, hi, h⟩ := ok_of_bind h
      obtain rfl := Except.ok.inj h
      obtain ⟨⟨hatyped, habare⟩, -⟩ := iha.value hx ha
      obtain ⟨hityped, hibare⟩ := ihi.typed hy hi
      rw [elemTy_eq helem] at hatyped
      refine ⟨.index (admits_of_allowed hallowed) hatyped hityped, ?_⟩
      rw [Expr.bare, Expr.bare, habare, hibare]

/-! ## Statements -/

/-- Declaring a variable keeps the others. -/
theorem declare_sound {name : String} {ty : Ty} (henv : EnvOk env) (hty : IsValue ty)
    (hname : isVariableName name = true) (h : declare env name ty = .ok env') :
    EnvOk env' ∧ Extends env env' ∧ env'.find? name = some ty := by
  rw [declare] at h
  cases hfind : env.find? name with
  | none =>
      rw [hfind] at h
      obtain rfl := Except.ok.inj h
      have hold : ∀ other, other ≠ name →
          Env.find? (env ++ [⟨name, ty⟩]) other = env.find? other := by
        intro other hne
        rw [find?_append, Env.find?, if_neg (Ne.symm hne), Env.find?, Option.or_none]
      have hnew : Env.find? (env ++ [⟨name, ty⟩]) name = some ty := by
        rw [find?_append, hfind, Option.none_or, Env.find?, if_pos rfl]
      refine ⟨⟨?_, ?_, ?_⟩, extends_append env _, hnew⟩
      · intro other found hother
        by_cases hne : other = name
        · rw [hne, hnew] at hother
          exact Option.some.inj hother ▸ hty
        · exact henv.value other found (hold other hne ▸ hother)
      · intro other found hother
        by_cases hne : other = name
        · exact hne ▸ hname
        · exact henv.name other found (hold other hne ▸ hother)
      · exact nodup_names_concat henv.distinct (notMem_of_find? hfind)
  | some declared =>
      rw [hfind] at h
      by_cases hsame : declared = ty
      · simp only [if_pos hsame] at h
        obtain rfl := Except.ok.inj h
        exact ⟨henv, Extends.refl env, hsame ▸ hfind⟩
      · simp only [if_neg hsame] at h
        exact absurd h (by simp)

theorem checkCondition_sound {what : String} {cond cond' : Expr} (henv : EnvOk env)
    (h : checkCondition tier env what cond = .ok cond') :
    HasType tier env cond' .bool ∧ cond'.bare = cond.bare := by
  obtain ⟨x, hx, h⟩ := ok_of_bind h
  by_cases hty : x.ty = .bool
  · rw [if_pos hty] at h
    obtain rfl := Except.ok.inj h
    obtain ⟨htyped, hbare⟩ := checkExpr_sound henv cond x hx
    exact ⟨hty ▸ htyped, hbare⟩
  · rw [if_neg hty] at h
    exact absurd h (by simp)

/-- What the checker has found out about a statement that it accepts, and what it returns for it.
Nothing is said about the statements in a body but that they are accepted in their turn. -/
inductive Accepted (tier : Tier) (env : Env) : Stmt → Env → Stmt → Prop
  | expr {x x' : Expr} : Types tier env x x' → Accepted tier env (.expr x) env (.expr x')
  | assign {name : String} {v v' : Expr} {env' : Env} :
      isVariableName name = true → Types tier env v v' → IsValue v'.ty →
      declare env name v'.ty = .ok env' →
      Accepted tier env (.assign name v) env' (.assign name v')
  | indexAssign {a a' i i' v v' : Expr} {elem : Ty} :
      tier.admits .array = true → HasType tier env a' (.array elem) → HasType tier env i' .int →
      HasType tier env v' elem → a'.bare = a.bare → i'.bare = i.bare → v'.bare = v.bare →
      Accepted tier env (.indexAssign a i v) env (.indexAssign a' i' v')
  | ifElse {c c' : Expr} {thenBody thenBody' elseBody elseBody' : List Stmt} {env₁ env₂ : Env} :
      HasType tier env c' .bool → c'.bare = c.bare →
      checkStmts tier env thenBody = .ok (env₁, thenBody') →
      checkStmts tier env₁ elseBody = .ok (env₂, elseBody') →
      Accepted tier env (.ifElse c thenBody elseBody) env₂ (.ifElse c' thenBody' elseBody')
  | whileDo {c c' : Expr} {body body' : List Stmt} {env₁ : Env} :
      HasType tier env c' .bool → c'.bare = c.bare →
      checkStmts tier env body = .ok (env₁, body') →
      Accepted tier env (.whileDo c body) env₁ (.whileDo c' body')

/-- All ways in which the checker accepts a statement. -/
theorem accepted_of_checkStmt {s s' : Stmt} (henv : EnvOk env)
    (h : checkStmt tier env s = .ok (env', s')) : Accepted tier env s env' s' := by
  cases s with
  | missing =>
      rw [checkStmt] at h
      exact absurd h (by simp)
  | expr x =>
      rw [checkStmt] at h
      obtain ⟨_, -, h⟩ := ok_of_bind h
      obtain ⟨y, hy, h⟩ := ok_of_bind h
      obtain ⟨rfl, rfl⟩ := Prod.mk.inj (Except.ok.inj h)
      exact .expr (checkExpr_sound henv x y hy)
  | assign name value =>
      rw [checkStmt] at h
      obtain ⟨_, -, h⟩ := ok_of_bind h
      cases hname : isVariableName name with
      | false => exact absurd h (by simp [hname, bind, Except.bind])
      | true =>
          simp only [hname, Bool.not_true, Bool.false_eq_true, if_false] at h
          obtain ⟨x, hx, h⟩ := ok_of_bind h
          obtain ⟨y, hy, h⟩ := ok_of_bind h
          obtain ⟨env₁, hdeclare, h⟩ := ok_of_bind h
          obtain ⟨rfl, rfl⟩ := Prod.mk.inj (Except.ok.inj h)
          obtain ⟨htypes, hvalue⟩ := (checkExpr_sound henv value).value hx hy
          exact .assign hname htypes hvalue hdeclare
  | indexAssign array index value =>
      rw [checkStmt] at h
      obtain ⟨_, hallowed, h⟩ := ok_of_bind h
      obtain ⟨x, hx, h⟩ := ok_of_bind h
      obtain ⟨a, ha, h⟩ := ok_of_bind h
      obtain ⟨elem, helem, h⟩ := ok_of_bind h
      obtain ⟨y, hy, h⟩ := ok_of_bind h
      obtain ⟨i, hi, h⟩ := ok_of_bind h
      obtain ⟨z, hz, h⟩ := ok_of_bind h
      obtain ⟨v, hv, h⟩ := ok_of_bind h
      by_cases hty : v.ty = elem
      · rw [if_pos hty] at h
        obtain ⟨rfl, rfl⟩ := Prod.mk.inj (Except.ok.inj h)
        obtain ⟨⟨hatyped, habare⟩, -⟩ := (checkExpr_sound henv array).value hx ha
        obtain ⟨hityped, hibare⟩ := (checkExpr_sound henv index).typed hy hi
        obtain ⟨⟨hvtyped, hvbare⟩, -⟩ := (checkExpr_sound henv value).value hz hv
        rw [elemTy_eq helem] at hatyped
        rw [hty] at hvtyped
        exact .indexAssign (admits_of_allowed hallowed) hatyped hityped hvtyped habare hibare hvbare
      · rw [if_neg hty] at h
        exact absurd h (by simp)
  | ifElse cond thenBody elseBody =>
      rw [checkStmt] at h
      obtain ⟨_, -, h⟩ := ok_of_bind h
      obtain ⟨c, hc, h⟩ := ok_of_bind h
      obtain ⟨⟨env₁, thenBody'⟩, hthen, h⟩ := ok_of_bind h
      obtain ⟨⟨env₂, elseBody'⟩, helse, h⟩ := ok_of_bind h
      obtain ⟨rfl, rfl⟩ := Prod.mk.inj (Except.ok.inj h)
      obtain ⟨hcond, hbare⟩ := checkCondition_sound henv hc
      exact .ifElse hcond hbare hthen helse
  | whileDo cond body =>
      rw [checkStmt] at h
      obtain ⟨_, -, h⟩ := ok_of_bind h
      obtain ⟨c, hc, h⟩ := ok_of_bind h
      obtain ⟨⟨env₁, body'⟩, hbody, h⟩ := ok_of_bind h
      obtain ⟨rfl, rfl⟩ := Prod.mk.inj (Except.ok.inj h)
      obtain ⟨hcond, hbare⟩ := checkCondition_sound henv hc
      exact .whileDo hcond hbare hbody

theorem checkStmts_nil {stmts' : List Stmt} (h : checkStmts tier env [] = .ok (env', stmts')) :
    env = env' ∧ [] = stmts' := by
  rw [checkStmts] at h
  exact Prod.mk.inj (Except.ok.inj h)

/-- Statements are checked from first to last. -/
theorem exists_of_checkStmts_cons {s : Stmt} {rest stmts' : List Stmt}
    (h : checkStmts tier env (s :: rest) = .ok (env', stmts')) :
    ∃ env₁ s' rest', checkStmt tier env s = .ok (env₁, s') ∧
      checkStmts tier env₁ rest = .ok (env', rest') ∧ s' :: rest' = stmts' := by
  rw [checkStmts] at h
  obtain ⟨⟨env₁, s'⟩, hfirst, h⟩ := ok_of_bind h
  obtain ⟨⟨env₂, rest'⟩, hrest, h⟩ := ok_of_bind h
  obtain ⟨rfl, rfl⟩ := Prod.mk.inj (Except.ok.inj h)
  exact ⟨env₁, s', rest', hfirst, hrest, rfl⟩

/-- What the checker returns for a statement. -/
def SoundStmt (tier : Tier) (s : Stmt) : Prop :=
  ∀ env env' s', EnvOk env → checkStmt tier env s = .ok (env', s') →
    EnvOk env' ∧ Extends env env' ∧ StmtTyped tier env' s' ∧ s'.bare = s.bare

theorem checkStmts_sound {stmts stmts' : List Stmt} (hstmts : ∀ s ∈ stmts, SoundStmt tier s)
    (henv : EnvOk env) (h : checkStmts tier env stmts = .ok (env', stmts')) :
    EnvOk env' ∧ Extends env env' ∧ (∀ s ∈ stmts', StmtTyped tier env' s) ∧
      Stmt.listBare stmts' = Stmt.listBare stmts := by
  induction stmts generalizing env stmts' with
  | nil =>
      obtain ⟨rfl, rfl⟩ := checkStmts_nil h
      exact ⟨henv, Extends.refl env, by simp, rfl⟩
  | cons s rest ih =>
      obtain ⟨hs, hrest⟩ := List.forall_mem_cons.mp hstmts
      obtain ⟨env₁, s', rest', hfirst, hothers, rfl⟩ := exists_of_checkStmts_cons h
      obtain ⟨henv₁, hext₁, htyped, hbare⟩ := hs env env₁ s' henv hfirst
      obtain ⟨henv₂, hext₂, htypeds, hbares⟩ := ih hrest henv₁ hothers
      refine ⟨henv₂, hext₁.trans hext₂, ?_, by rw [Stmt.listBare, Stmt.listBare, hbare, hbares]⟩
      exact List.forall_mem_cons.mpr ⟨htyped.extend hext₂, htypeds⟩

/-- A statement that the checker accepts is well typed in the environment after it. -/
theorem checkStmt_sound (s : Stmt) : SoundStmt tier s := by
  induction s with
  | missing =>
      intro env env' s' henv h
      cases accepted_of_checkStmt henv h
  | expr x =>
      intro env env' s' henv h
      cases accepted_of_checkStmt henv h with
      | expr hx =>
          refine ⟨henv, Extends.refl env, .expr hx.typed, ?_⟩
          rw [Stmt.bare, Stmt.bare, hx.bare]
  | assign name value =>
      intro env env' s' henv h
      cases accepted_of_checkStmt henv h with
      | assign hname hv hvalue hdeclare =>
          obtain ⟨henv', hext, hfind⟩ := declare_sound henv hvalue hname hdeclare
          refine ⟨henv', hext, .assign hfind hvalue (hv.typed.extend hext), ?_⟩
          rw [Stmt.bare, Stmt.bare, hv.bare]
  | indexAssign array index value =>
      intro env env' s' henv h
      cases accepted_of_checkStmt henv h with
      | indexAssign hadmits ha hi hv habare hibare hvbare =>
          refine ⟨henv, Extends.refl env, .indexAssign hadmits ha hi hv, ?_⟩
          rw [Stmt.bare, Stmt.bare, habare, hibare, hvbare]
  | ifElse cond thenBody elseBody ihthen ihelse =>
      intro env env' s' henv h
      cases accepted_of_checkStmt henv h with
      | ifElse hcond hcbare hthen helse =>
          obtain ⟨henv₁, hext₁, hthens, htbare⟩ := checkStmts_sound ihthen henv hthen
          obtain ⟨henv₂, hext₂, helses, hebare⟩ := checkStmts_sound ihelse henv₁ helse
          refine ⟨henv₂, hext₁.trans hext₂, .ifElse ?_ ?_ helses, ?_⟩
          · exact hcond.extend (hext₁.trans hext₂)
          · exact fun s hs => (hthens s hs).extend hext₂
          · rw [Stmt.bare, Stmt.bare, hcbare, htbare, hebare]
  | whileDo cond body ih =>
      intro env env' s' henv h
      cases accepted_of_checkStmt henv h with
      | whileDo hcond hcbare hbody =>
          obtain ⟨henv₁, hext₁, hbodies, hbbare⟩ := checkStmts_sound ih henv hbody
          refine ⟨henv₁, hext₁, .whileDo (hcond.extend hext₁) hbodies, ?_⟩
          rw [Stmt.bare, Stmt.bare, hcbare, hbbare]

theorem checkStmts_of_check {source stmts : List Stmt}
    (h : check tier (some source) = .ok (env, stmts)) :
    checkStmts tier [] source = .ok (env, stmts) := by
  rw [check] at h
  cases hcheck : checkStmts tier [] source with
  | error e =>
      rw [hcheck] at h
      cases h
  | ok result =>
      rw [hcheck] at h
      exact congrArg Except.ok (Except.ok.inj h)

theorem envOk_nil : EnvOk [] where
  value _ _ h := absurd h (by simp [Env.find?])
  name _ _ h := absurd h (by simp [Env.find?])
  distinct := List.nodup_nil

/-- A program that the checker accepts is well typed in the environment that it returns. -/
theorem check_sound {program : Option (List Stmt)} {stmts : List Stmt}
    (h : check tier program = .ok (env, stmts)) :
    EnvOk env ∧ ∀ s ∈ stmts, StmtTyped tier env s := by
  cases program with
  | none => exact absurd h (by simp [check])
  | some source =>
      obtain ⟨henv, -, htyped, -⟩ :=
        checkStmts_sound (fun s _ => checkStmt_sound s) envOk_nil (checkStmts_of_check h)
      exact ⟨henv, htyped⟩

/-- The checker only fills in types. -/
theorem check_bare {source stmts : List Stmt} (h : check tier (some source) = .ok (env, stmts)) :
    Stmt.listBare stmts = Stmt.listBare source := by
  obtain ⟨-, -, -, hbare⟩ :=
    checkStmts_sound (fun s _ => checkStmt_sound s) envOk_nil (checkStmts_of_check h)
  exact hbare

theorem listLengths_of_check {source stmts : List Stmt}
    (h : check tier (some source) = .ok (env, stmts)) :
    Stmt.listLengths stmts = Stmt.listLengths source := by
  rw [← Stmt.listLengths_listBare fun s _ => s.lengths_bare, check_bare h,
    Stmt.listLengths_listBare fun s _ => s.lengths_bare]

end ArrayLang.Typing
