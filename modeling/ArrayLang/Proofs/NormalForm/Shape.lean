import ArrayLang.NormalForm.Basic
import ArrayLang.Proofs.Typing.Rules

/-!
# Shape of normal forms

How the statements and operands that normalisation returns are put together, as relations.  The
numbers of temporaries only grow.  Programs in which nothing is missing and every node has a type
have a normal form, and it has this shape; everything else about normal forms follows from the
relations.
-/

namespace ArrayLang.NormalForm

open Source Typing

/-! ## Relations -/

/-- A temporary is made. -/
inductive Fresh : Temps → Ty → Binding → Temps → Prop
  | intro {T : Temps} {ty : Ty} {n : Nat} :
      T.next ≤ n → Fresh T ty ⟨tempName n, ty⟩ ⟨n + 1, T.made ++ [⟨tempName n, ty⟩]⟩

/-- Operands that are neither literals nor variables are moved into temporaries. -/
inductive Moves : Temps → List Expr → List Stmt → List Expr → Temps → Prop
  | nil {T : Temps} : Moves T [] [] [] T
  | keep {T T' : Temps} {x : Expr} {xs xs' : List Expr} {moves : List Stmt} :
      x.isAtomic = true → Moves T xs moves xs' T' → Moves T (x :: xs) moves (x :: xs') T'
  | move {T T₁ T' : Temps} {x : Expr} {xs xs' : List Expr} {moves : List Stmt} {temp : Binding} :
      x.isAtomic = false → Fresh T x.ty temp T₁ → Moves T₁ xs moves xs' T' →
      Moves T (x :: xs) (.assign temp.name x :: moves) (use temp :: xs') T'

/-- The conditional that evaluates a right operand of `and` or `or` only when it is needed. -/
def choose (op : BinaryOp) (temp : Binding) (rest : List Stmt) : Stmt :=
  if op = .or then .ifElse (use temp) [] rest else .ifElse (use temp) rest []

/-- Two expressions are the same operation, which evaluates all its operands, on two lists of
operands.  `array` says whether it is an operation on arrays. -/
inductive SameNode : (array : Bool) → Expr → List Expr → Expr → List Expr → Prop
  | unary {ty : Ty} {op : UnaryOp} {x x' : Expr} :
      SameNode false (.unary ty op x) [x] (.unary ty op x') [x']
  | binary {ty : Ty} {op : BinaryOp} {l r l' r' : Expr} :
      op ≠ .and → op ≠ .or → SameNode false (.binary ty op l r) [l, r] (.binary ty op l' r') [l', r']
  | call {ty : Ty} {name : String} {args args' : List Expr} :
      SameNode false (.call ty name args) args (.call ty name args') args'
  | arrayLit {ty elemTy : Ty} {elems elems' : List Expr} :
      SameNode true (.arrayLit ty elemTy elems) elems (.arrayLit ty elemTy elems') elems'
  | arrayFill {ty : Ty} {n v n' v' : Expr} :
      SameNode true (.arrayFill ty n v) [n, v] (.arrayFill ty n' v') [n', v']
  | index {ty : Ty} {a i a' i' : Expr} :
      SameNode true (.index ty a i) [a, i] (.index ty a' i') [a', i']

/-- Operands are prepared: after some statements, they can be replaced by others. -/
inductive Prepares : Temps → List Expr → List Stmt → List Expr → Temps → Prop
  | nil {T : Temps} : Prepares T [] [] [] T
  | atom {T : Temps} {e : Expr} : e.isAtomic = true → Prepares T [e] [] [e] T
  | node {T T' : Temps} {e e' : Expr} {es xs : List Expr} {first : List Stmt} :
      SameNode false e es e' xs → Prepares T es first xs T' → Prepares T [e] first [e'] T'
  | arrayNode {T T₁ T' : Temps} {e e' : Expr} {es xs xs' : List Expr} {first moves : List Stmt} :
      SameNode true e es e' xs' → Prepares T es first xs T₁ → Moves T₁ xs moves xs' T' →
      Prepares T [e] (first ++ moves) [e'] T'
  | logic {T T₁ T' : Temps} {ty : Ty} {op : BinaryOp} {l r l' r' : Expr} {first : List Stmt} :
      op = .and ∨ op = .or → Prepares T [l] first [l'] T₁ → Prepares T₁ [r] [] [r'] T' →
      Prepares T [.binary ty op l r] first [.binary ty op l' r'] T'
  | logicMoved {T T₁ T₂ T' : Temps} {ty : Ty} {op : BinaryOp} {l r l' r' : Expr}
      {first own : List Stmt} {temp : Binding} :
      op = .and ∨ op = .or → Prepares T [l] first [l'] T₁ → Prepares T₁ [r] own [r'] T₂ →
      own ≠ [] → Fresh T₂ .bool temp T' →
      Prepares T [.binary ty op l r]
        (first ++ [.assign temp.name l', choose op temp (own ++ [.assign temp.name r'])])
        [use temp] T'
  | snoc {T T₁ T' : Temps} {es xs : List Expr} {e x : Expr} {first : List Stmt} :
      Prepares T es first xs T₁ → Prepares T₁ [e] [] [x] T' →
      Prepares T (es ++ [e]) first (xs ++ [x]) T'
  | snocMoved {T T₁ T₂ T' : Temps} {es xs xs' : List Expr} {e x : Expr}
      {first moves own : List Stmt} :
      Prepares T es first xs T₁ → Prepares T₁ [e] own [x] T₂ → own ≠ [] → Moves T₂ xs moves xs' T' →
      Prepares T (es ++ [e]) (first ++ moves ++ own) (xs' ++ [x]) T'

/-- Statements have a normal form. -/
inductive Normalizes : Temps → List Stmt → List Stmt → Temps → Prop
  | nil {T : Temps} : Normalizes T [] [] T
  | expr {T T₁ T' : Temps} {x x' : Expr} {first rest out : List Stmt} :
      Prepares T [x] first [x'] T₁ → Normalizes T₁ rest out T' →
      Normalizes T (.expr x :: rest) (first ++ .expr x' :: out) T'
  | assign {T T₁ T' : Temps} {name : String} {v v' : Expr} {first rest out : List Stmt} :
      Prepares T [v] first [v'] T₁ → Normalizes T₁ rest out T' →
      Normalizes T (.assign name v :: rest) (first ++ .assign name v' :: out) T'
  | indexAssign {T T₁ T₂ T₃ T' : Temps} {a i v a' i' v' : Expr} {xs : List Expr}
      {first moves own rest out : List Stmt} :
      Prepares T [a, i] first xs T₁ → Moves T₁ xs moves [a', i'] T₂ →
      Prepares T₂ [v] own [v'] T₃ → Normalizes T₃ rest out T' →
      Normalizes T (.indexAssign a i v :: rest)
        (first ++ moves ++ own ++ .indexAssign a' i' v' :: out) T'
  | ifElse {T T₁ T₂ T₃ T' : Temps} {c c' : Expr}
      {first thenBody thenBody' elseBody elseBody' rest out : List Stmt} :
      Prepares T [c] first [c'] T₁ → Normalizes T₁ thenBody thenBody' T₂ →
      Normalizes T₂ elseBody elseBody' T₃ → Normalizes T₃ rest out T' →
      Normalizes T (.ifElse c thenBody elseBody :: rest)
        (first ++ .ifElse c' thenBody' elseBody' :: out) T'
  | whileDo {T T₁ T₂ T' : Temps} {c c' : Expr} {body body' rest out : List Stmt} :
      Prepares T [c] [] [c'] T₁ → Normalizes T₁ body body' T₂ → Normalizes T₂ rest out T' →
      Normalizes T (.whileDo c body :: rest) (.whileDo c' body' :: out) T'
  | whileMoved {T T₁ T₂ T₃ T' : Temps} {c c' : Expr} {first body body' rest out : List Stmt}
      {temp : Binding} :
      Prepares T [c] first [c'] T₁ → first ≠ [] → Normalizes T₁ body body' T₂ →
      Fresh T₂ .bool temp T₃ → Normalizes T₃ rest out T' →
      Normalizes T (.whileDo c body :: rest)
        (first ++ [.assign temp.name c'] ++
          .whileDo (use temp) (body' ++ (first ++ [.assign temp.name c'])) :: out) T'

/-! ## Steps that make temporaries -/

/-- A step from some temporaries succeeds with a property. -/
def Hoists {α : Type} (T : Temps) (step : Hoist α) (Q : α → Temps → Prop) : Prop :=
  ∃ a T', step T = .ok (a, T') ∧ Q a T'

section

variable {α β : Type} {env : Env} {T : Temps}

theorem Hoists.pure {Q : α → Temps → Prop} {a : α} (h : Q a T) :
    Hoists T (Pure.pure a) Q :=
  ⟨a, T, rfl, h⟩

theorem Hoists.bind {Q : α → Temps → Prop} {R : β → Temps → Prop} {x : Hoist α}
    {f : α → Hoist β} (hx : Hoists T x Q) (hf : ∀ a T', Q a T' → Hoists T' (f a) R) :
    Hoists T (x >>= f) R := by
  obtain ⟨a, T₁, hrun, hQ⟩ := hx
  obtain ⟨b, T₂, hrun', hR⟩ := hf a T₁ hQ
  refine ⟨b, T₂, ?_, hR⟩
  have hstep : (x >>= f) T = (x T >>= fun r => f r.1 r.2) := rfl
  rw [hstep, hrun]
  exact hrun'

theorem le_freeNumber (env : Env) (n tries : Nat) : n ≤ freeNumber env n tries := by
  induction tries generalizing n with
  | zero => exact Nat.le_refl n
  | succ tries ih =>
      rw [freeNumber]
      split
      · exact Nat.le_trans (Nat.le_succ n) (ih (n + 1))
      · exact Nat.le_refl n

theorem hoists_fresh (ty : Ty) : Hoists T (fresh env ty) fun temp T' => Fresh T ty temp T' :=
  ⟨_, _, rfl, .intro (le_freeNumber env T.next _)⟩

theorem Hoists.after_typed {e : Expr} {Q : α → Temps → Prop} {f : Unit → Hoist α}
    (h : e.ty.isValid = true) (hf : Hoists T (f ()) Q) : Hoists T (typed e >>= f) Q := by
  rw [typed, h]
  exact hf

theorem hoists_hoist (x : Expr) :
    Hoists T (hoist env x) fun r T' => Moves T [x] r.1 [r.2] T' := by
  rw [hoist]
  cases hx : x.isAtomic with
  | true => exact Hoists.pure (.keep hx .nil)
  | false =>
      refine (hoists_fresh x.ty).bind fun temp T' hfresh => ?_
      exact Hoists.pure (.move hx hfresh .nil)

/-- Moves of two lists, one after the other. -/
theorem Moves.append {T₁ T' : Temps} {xs xs' ys ys' : List Expr} {moves moves' : List Stmt}
    (h : Moves T xs moves xs' T₁) (h' : Moves T₁ ys moves' ys' T') :
    Moves T (xs ++ ys) (moves ++ moves') (xs' ++ ys') T' := by
  induction h with
  | nil => exact h'
  | keep hx _ ih => exact .keep hx (ih h')
  | move hx hfresh _ ih => exact .move hx hfresh (ih h')

theorem Moves.atomic {T' : Temps} {xs xs' : List Expr} {moves : List Stmt}
    (h : Moves T xs moves xs' T') : xs'.all Expr.isAtomic = true := by
  induction h with
  | nil => rfl
  | keep hx _ ih => simp [hx, ih]
  | move _ _ _ ih => simp [use, Expr.isAtomic, ih]

theorem hoists_hoistAll (xs : List Expr) :
    Hoists T (hoistAll env xs) fun r T' => Moves T xs r.1 r.2 T' := by
  induction xs generalizing T with
  | nil => exact Hoists.pure .nil
  | cons x rest ih =>
      rw [hoistAll]
      refine (hoists_hoist x).bind fun r T₁ hfirst => ?_
      refine ih.bind fun r' T' hrest => ?_
      exact Hoists.pure (hfirst.append hrest)

theorem hoists_sequence {T₁ T₂ : Temps} {l r l' r' : Expr} {first own : List Stmt}
    (hl : Prepares T [l] first [l'] T₁) (hr : Prepares T₁ [r] own [r'] T₂) :
    Hoists T₂ (sequence env first l' own r') fun p T' =>
      Prepares T [l, r] p.1 [p.2.1, p.2.2] T' := by
  rw [sequence]
  cases own with
  | nil => exact Hoists.pure (.snoc hl hr)
  | cons s rest =>
      refine (hoists_hoist l').bind fun p T' hmoves => ?_
      exact Hoists.pure (.snocMoved hl hr (by simp) hmoves)

theorem hoists_atoms {T₁ T₂ : Temps} {l r l' r' : Expr} {first own : List Stmt}
    (hl : Prepares T [l] first [l'] T₁) (hr : Prepares T₁ [r] own [r'] T₂) :
    Hoists T₂ (atoms env first l' own r') fun p T' =>
      ∃ before moves xs T₃, p.1 = before ++ moves ∧ Prepares T [l, r] before xs T₃ ∧
        Moves T₃ xs moves [p.2.1, p.2.2] T' := by
  rw [atoms]
  refine (hoists_sequence hl hr).bind fun p T₃ hp => ?_
  refine (hoists_hoist p.2.1).bind fun q T₄ hq => ?_
  refine (hoists_hoist p.2.2).bind fun q' T' hq' => ?_
  exact Hoists.pure ⟨p.1, _, _, T₃, List.append_assoc _ _ _, hp, hq.append hq'⟩

theorem hoists_shortCircuit {T₁ T₂ : Temps} {ty : Ty} {op : BinaryOp} {l r l' r' : Expr}
    {first own : List Stmt} (hop : op = .and ∨ op = .or)
    (hl : Prepares T [l] first [l'] T₁) (hr : Prepares T₁ [r] own [r'] T₂) :
    Hoists T₂ (shortCircuit env ty op first l' own r') fun p T' =>
      Prepares T [.binary ty op l r] p.1 [p.2] T' := by
  rw [shortCircuit]
  cases own with
  | nil => exact Hoists.pure (.logic hop hl hr)
  | cons s rest =>
      refine (hoists_fresh .bool).bind fun temp T' hfresh => ?_
      exact Hoists.pure (.logicMoved hop hl hr (by simp) hfresh)

/-! ## Annotated programs have a normal form -/

/-- Every node of an expression is there and has a type. -/
inductive Annotated : Expr → Prop
  | int {ty : Ty} {value : Int64} : ty.isValid = true → Annotated (.int ty value)
  | bool {ty : Ty} {value : Bool} : ty.isValid = true → Annotated (.bool ty value)
  | var {ty : Ty} {name : String} : ty.isValid = true → Annotated (.var ty name)
  | unary {ty : Ty} {op : UnaryOp} {x : Expr} :
      ty.isValid = true → Annotated x → Annotated (.unary ty op x)
  | binary {ty : Ty} {op : BinaryOp} {l r : Expr} :
      ty.isValid = true → Annotated l → Annotated r → Annotated (.binary ty op l r)
  | call {ty : Ty} {name : String} {args : List Expr} :
      ty.isValid = true → (∀ a ∈ args, Annotated a) → Annotated (.call ty name args)
  | arrayLit {ty elemTy : Ty} {elems : List Expr} :
      ty.isValid = true → (∀ e ∈ elems, Annotated e) → Annotated (.arrayLit ty elemTy elems)
  | arrayFill {ty : Ty} {n v : Expr} :
      ty.isValid = true → Annotated n → Annotated v → Annotated (.arrayFill ty n v)
  | index {ty : Ty} {a i : Expr} :
      ty.isValid = true → Annotated a → Annotated i → Annotated (.index ty a i)

/-- Every node of the expressions in a statement has a type, and no statement is missing. -/
inductive StmtAnnotated : Stmt → Prop
  | expr {x : Expr} : Annotated x → StmtAnnotated (.expr x)
  | assign {name : String} {v : Expr} : Annotated v → StmtAnnotated (.assign name v)
  | indexAssign {a i v : Expr} :
      Annotated a → Annotated i → Annotated v → StmtAnnotated (.indexAssign a i v)
  | ifElse {c : Expr} {thenBody elseBody : List Stmt} :
      Annotated c → (∀ s ∈ thenBody, StmtAnnotated s) → (∀ s ∈ elseBody, StmtAnnotated s) →
      StmtAnnotated (.ifElse c thenBody elseBody)
  | whileDo {c : Expr} {body : List Stmt} :
      Annotated c → (∀ s ∈ body, StmtAnnotated s) → StmtAnnotated (.whileDo c body)

/-- Normalising an expression prepares it. -/
def Normal (env : Env) (e : Expr) : Prop :=
  ∀ T, Hoists T (normExpr env e) fun p T' => Prepares T [e] p.1 [p.2] T'

theorem hoists_normList {T₀ : Temps} {es done rest : List Expr} {first : List Stmt}
    (hdone : Prepares T₀ es first done T) (hrest : ∀ e ∈ rest, Normal env e) :
    Hoists T (normList env first done rest) fun p T' => Prepares T₀ (es ++ rest) p.1 p.2 T' := by
  induction rest generalizing es done first T with
  | nil =>
      rw [normList, List.append_nil]
      exact Hoists.pure hdone
  | cons e rest ih =>
      obtain ⟨he, hrest⟩ := List.forall_mem_cons.mp hrest
      rw [normList, ← List.singleton_append, ← List.append_assoc]
      refine (he T).bind ?_
      rintro ⟨own, x⟩ T₁ hx
      cases own with
      | nil => exact ih (.snoc hdone hx) hrest
      | cons s others =>
          refine (hoists_hoistAll done).bind fun p T₂ hmoves => ?_
          exact ih (.snocMoved hdone hx (by simp) hmoves) hrest

theorem hoists_normExprs {es : List Expr} (h : ∀ e ∈ es, Normal env e) :
    Hoists T (normList env [] [] es) fun p T' => Prepares T es p.1 p.2 T' :=
  hoists_normList .nil h

/-- An annotated expression can be normalised. -/
theorem normal_of_annotated {e : Expr} (h : Annotated e) : Normal env e := by
  induction h with
  | int hty | bool hty | var hty =>
      intro T
      rw [normExpr]
      exact .after_typed hty (Hoists.pure (.atom rfl))
  | unary hty _ ih =>
      intro T
      rw [normExpr]
      refine .after_typed hty ((ih T).bind fun p T' hp => ?_)
      exact Hoists.pure (.node .unary hp)
  | @binary ty op l r hty _ _ ihl ihr =>
      intro T
      rw [normExpr]
      refine .after_typed hty ((ihl T).bind fun p T₁ hp => (ihr T₁).bind fun q T₂ hq => ?_)
      by_cases hop : op = .and ∨ op = .or
      · simp only [if_pos hop]
        exact hoists_shortCircuit hop hp hq
      · simp only [if_neg hop]
        rw [not_or] at hop
        refine (hoists_sequence hp hq).bind fun u T' hu => ?_
        exact Hoists.pure (.node (.binary hop.1 hop.2) hu)
  | call hty _ ih =>
      intro T
      rw [normExpr]
      refine .after_typed hty ((hoists_normExprs ih).bind fun p T' hp => ?_)
      exact Hoists.pure (.node .call hp)
  | arrayLit hty _ ih =>
      intro T
      rw [normExpr]
      refine .after_typed hty ((hoists_normExprs ih).bind fun p T₁ hp => ?_)
      refine (hoists_hoistAll p.2).bind fun q T' hq => ?_
      exact Hoists.pure (.arrayNode .arrayLit hp hq)
  | arrayFill hty _ _ ihn ihv =>
      intro T
      rw [normExpr]
      refine .after_typed hty ((ihn T).bind fun p T₁ hp => (ihv T₁).bind fun q T₂ hq => ?_)
      refine (hoists_atoms hp hq).bind ?_
      rintro ⟨_, n', v'⟩ T' ⟨first, moves, xs, T₃, rfl, hxs, hmoves⟩
      exact Hoists.pure (.arrayNode .arrayFill hxs hmoves)
  | index hty _ _ iha ihi =>
      intro T
      rw [normExpr]
      refine .after_typed hty ((iha T).bind fun p T₁ hp => (ihi T₁).bind fun q T₂ hq => ?_)
      refine (hoists_atoms hp hq).bind ?_
      rintro ⟨_, a', i'⟩ T' ⟨first, moves, xs, T₃, rfl, hxs, hmoves⟩
      exact Hoists.pure (.arrayNode .index hxs hmoves)

/-- Normalising a statement yields the start of a normal form. -/
def NormalStmt (env : Env) (s : Stmt) : Prop :=
  ∀ T, Hoists T (normStmt env s) fun out T₁ =>
    ∀ rest out' T', Normalizes T₁ rest out' T' → Normalizes T (s :: rest) (out ++ out') T'

theorem hoists_normStmts {stmts : List Stmt} (h : ∀ s ∈ stmts, NormalStmt env s) :
    Hoists T (normStmts env stmts) fun out T' => Normalizes T stmts out T' := by
  induction stmts generalizing T with
  | nil =>
      rw [normStmts]
      exact Hoists.pure .nil
  | cons s rest ih =>
      obtain ⟨hs, hrest⟩ := List.forall_mem_cons.mp h
      rw [normStmts]
      refine (hs T).bind fun out T₁ hout => (ih hrest).bind fun out' T' hout' => ?_
      exact Hoists.pure (hout rest out' T' hout')

/-- An annotated statement can be normalised. -/
theorem normalStmt_of_annotated {s : Stmt} (h : StmtAnnotated s) : NormalStmt env s := by
  induction h with
  | expr hx =>
      intro T
      rw [normStmt]
      refine (normal_of_annotated hx T).bind fun p T₁ hp => Hoists.pure ?_
      intro rest out' T' hrest
      rw [List.append_assoc]
      exact .expr hp hrest
  | assign hv =>
      intro T
      rw [normStmt]
      refine (normal_of_annotated hv T).bind fun p T₁ hp => Hoists.pure ?_
      intro rest out' T' hrest
      rw [List.append_assoc]
      exact .assign hp hrest
  | indexAssign ha hi hv =>
      intro T
      rw [normStmt]
      refine (normal_of_annotated ha T).bind fun p T₁ hp => ?_
      refine (normal_of_annotated hi T₁).bind fun q T₂ hq => ?_
      refine (hoists_atoms hp hq).bind ?_
      rintro ⟨_, a', i'⟩ T₃ ⟨first, moves, xs, T₄, rfl, hxs, hmoves⟩
      refine (normal_of_annotated hv T₃).bind fun v T₅ hv => Hoists.pure ?_
      intro rest out' T' hrest
      rw [List.append_assoc]
      exact .indexAssign hxs hmoves hv hrest
  | ifElse hc _ _ ihthen ihelse =>
      intro T
      rw [normStmt]
      refine (normal_of_annotated hc T).bind fun p T₁ hp => ?_
      refine (hoists_normStmts ihthen).bind fun thenBody T₂ hthen => ?_
      refine (hoists_normStmts ihelse).bind fun elseBody T₃ helse => Hoists.pure ?_
      intro rest out' T' hrest
      rw [List.append_assoc]
      exact .ifElse hp hthen helse hrest
  | whileDo hc _ ih =>
      intro T
      rw [normStmt]
      refine (normal_of_annotated hc T).bind ?_
      rintro ⟨first, c'⟩ T₁ hp
      refine (hoists_normStmts ih).bind fun body T₂ hbody => ?_
      cases first with
      | nil =>
          refine Hoists.pure ?_
          intro rest out' T' hrest
          exact .whileDo hp hbody hrest
      | cons s others =>
          refine (hoists_fresh .bool).bind fun temp T₃ hfresh => Hoists.pure ?_
          intro rest out' T' hrest
          rw [List.append_assoc]
          exact .whileMoved hp (by simp) hbody hfresh hrest

/-- An annotated program has a normal form. -/
theorem normalize_of_annotated (env : Env) {stmts : List Stmt}
    (h : ∀ s ∈ stmts, StmtAnnotated s) :
    ∃ out T', normalize env (some stmts) = .ok (out, T'.made) ∧ Normalizes {} stmts out T' := by
  have hstmts : ∀ s ∈ stmts, NormalStmt env s := fun s hs => normalStmt_of_annotated (h s hs)
  obtain ⟨out, T', hrun, hnorm⟩ := hoists_normStmts (T := {}) hstmts
  refine ⟨out, T', ?_, hnorm⟩
  rw [normalize, StateT.run, hrun]

/-! ## Well-typed programs are annotated -/

theorem annotated_of_hasType {tier : Tier} {vars : Env} {e : Expr} {ty : Ty}
    (h : HasType tier vars e ty) : Annotated e := by
  have hvalid := h.isValid
  induction h with
  | int => exact .int hvalid
  | bool => exact .bool hvalid
  | var => exact .var hvalid
  | neg hx ih => exact .unary hvalid (ih hx.isValid)
  | not hx ih => exact .unary hvalid (ih hx.isValid)
  | arith _ hl hr ihl ihr => exact .binary hvalid (ihl hl.isValid) (ihr hr.isValid)
  | order _ hl hr ihl ihr => exact .binary hvalid (ihl hl.isValid) (ihr hr.isValid)
  | equality _ _ hl hr ihl ihr => exact .binary hvalid (ihl hl.isValid) (ihr hr.isValid)
  | logic _ hl hr ihl ihr => exact .binary hvalid (ihl hl.isValid) (ihr hr.isValid)
  | identity hl hr ihl ihr => exact .binary hvalid (ihl hl.isValid) (ihr hr.isValid)
  | print hx _ ih => exact .call hvalid (by simpa using ih hx.isValid)
  | input => exact .call hvalid (by simp)
  | len _ hx ih => exact .call hvalid (by simpa using ih hx.isValid)
  | arrayLit _ _ _ helems ih => exact .arrayLit hvalid fun e he => ih e he (helems e he).isValid
  | arrayFill _ _ hn hv ihn ihv => exact .arrayFill hvalid (ihn hn.isValid) (ihv hv.isValid)
  | index _ ha hi iha ihi => exact .index hvalid (iha ha.isValid) (ihi hi.isValid)

theorem stmtAnnotated_of_typed {tier : Tier} {vars : Env} {s : Stmt}
    (h : StmtTyped tier vars s) : StmtAnnotated s := by
  induction h with
  | expr hx => exact .expr (annotated_of_hasType hx)
  | assign _ _ hv => exact .assign (annotated_of_hasType hv)
  | indexAssign _ ha hi hv =>
      exact .indexAssign (annotated_of_hasType ha) (annotated_of_hasType hi)
        (annotated_of_hasType hv)
  | ifElse hc _ _ ihthen ihelse => exact .ifElse (annotated_of_hasType hc) ihthen ihelse
  | whileDo hc _ ih => exact .whileDo (annotated_of_hasType hc) ih

/-- A well-typed program has a normal form. -/
theorem normalize_of_typed {tier : Tier} {vars : Env} {stmts : List Stmt}
    (h : ∀ s ∈ stmts, StmtTyped tier vars s) :
    ∃ out T', normalize env (some stmts) = .ok (out, T'.made) ∧ Normalizes {} stmts out T' :=
  normalize_of_annotated env fun s hs => stmtAnnotated_of_typed (h s hs)

end

end ArrayLang.NormalForm
