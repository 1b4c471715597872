import ArrayLang.Proofs.NormalForm.Output
import ArrayLang.Proofs.Reference.Alike

/-!
# Prepared operands keep their meaning

Running the statements that normalisation puts in front of operands and then evaluating the new
operands does the same as evaluating the operands of the source.  There is one exception: a left
operand of `and` or `or` that is kept in a temporary and decides the operation keeps its value,
while the source makes it 0 or 1.
-/

namespace ArrayLang.NormalForm

open Source Typing Emit Machine Reference

/-- The right operand of `and` or `or` is needed when the left one has this value. -/
def needed (op : BinaryOp) (left : UInt64) : Bool := if op = .or then !truth left else truth left

/-- If the right operand of `and` or `or` needs statements and is not evaluated, the left one is the
truth value that it stands for: a true one of `or` is 1, and a false one of `and` is 0. -/
def Fair : Event → Prop
  | .choice op right left =>
    right.isNormal = false → needed op left = false → left = ofBool (truth left)
  | _ => True

instance : DecidablePred Fair
  | .choice op right left =>
    inferInstanceAs (Decidable (right.isNormal = false → needed op left = false →
      left = ofBool (truth left)))
  | .read _ | .assign _ | .made _ | .access _ _ _ => .isTrue trivial

variable {t : Target} {T T₁ T₂ T' : Temps} {es xs xs' : List Expr} {first moves : List Stmt}

/-! ## Variables that stay -/

/-- A computation does not change a variable. -/
def Leaves {α : Type} (x : String) (c : Eval α) : Prop :=
  ∀ w, (endWorld (c w)).vars x = w.vars x

section

variable {α β : Type} {x : String}

theorem Leaves.bind {c : Eval α} {f : α → Eval β} (hc : Leaves x c) (hf : ∀ a, Leaves x (f a)) :
    Leaves x (c >>= f) := by
  intro w
  have h := hc w
  rw [run_bind]
  generalize c w = r at h ⊢
  cases r with
  | ok a w₁ => exact (hf a w₁).trans h
  | error why w₁ => exact h

theorem Leaves.of_ok {c : Eval α} {a : α} {w w' : World} (h : Leaves x c)
    (hrun : c w = .ok a w') : w'.vars x = w.vars x := by
  have hvars := h w
  rwa [hrun] at hvars

theorem Leaves.of_runs (c : Eval α) [Runs True False c] : Leaves x c :=
  fun w => congrFun (vars_eq c w) x

theorem Leaves.assign {name : String} (v : Expr) (h : x ≠ name) :
    Leaves x (runStmt t (.assign name v)) := by
  rw [runStmt]
  refine (Leaves.of_runs (evalExpr t v)).bind fun value w => ?_
  simp [endWorld, h]

theorem Leaves.append {ss ss' : List Stmt} (h : Leaves x (runStmts t ss))
    (h' : Leaves x (runStmts t ss')) : Leaves x (runStmts t (ss ++ ss')) := by
  rw [runStmts_append]
  exact h.bind fun _ => h'

theorem Leaves.nil : Leaves x (runStmts t []) := by
  rw [runStmts]
  exact fun _ => rfl

theorem Leaves.cons {s : Stmt} {ss : List Stmt} (h : Leaves x (runStmt t s))
    (h' : Leaves x (runStmts t ss)) : Leaves x (runStmts t (s :: ss)) := by
  rw [runStmts]
  exact h.bind fun _ => h'

theorem Leaves.choose {op : BinaryOp} {temp : Binding} {rest : List Stmt}
    (h : Leaves x (runStmts t rest)) : Leaves x (runStmt t (choose op temp rest)) := by
  rw [NormalForm.choose]
  split
  · rw [runStmt]
    refine (Leaves.of_runs (holds t _)).bind fun b => ?_
    split
    · exact Leaves.nil
    · exact h
  · rw [runStmt]
    refine (Leaves.of_runs (holds t _)).bind fun b => ?_
    split
    · exact h
    · exact Leaves.nil

end

theorem Fresh.ne {ty : Ty} {temp : Binding} {x : String} (h : Fresh T₁ ty temp T₂)
    (hle : T.next ≤ T₁.next) (hle' : T₂.next ≤ T'.next) (hx : ¬Between T T' x) : x ≠ temp.name := by
  rintro rfl
  exact hx (h.between.mono hle hle')

theorem Moves.leaves {x : String} (h : Moves T xs moves xs' T') (hx : ¬Between T T' x) :
    Leaves x (runStmts t moves) := by
  induction h with
  | nil => exact Leaves.nil
  | keep _ _ ih => exact ih hx
  | move _ hfresh hrest ih =>
      refine Leaves.cons (Leaves.assign _ (hfresh.ne le_rfl hrest.next_le hx)) (ih fun h => hx ?_)
      exact h.mono hfresh.next_lt.le le_rfl

/-- The statements in front of operands change their own temporaries only. -/
theorem Prepares.leaves {x : String} (h : Prepares T es first xs T') (hx : ¬Between T T' x) :
    Leaves x (runStmts t first) := by
  induction h with
  | nil | atom => exact Leaves.nil
  | node _ _ ih => exact ih hx
  | arrayNode _ hprep hmoves ih =>
      refine Leaves.append (ih fun h => hx ?_) (hmoves.leaves fun h => hx ?_)
      · exact h.mono le_rfl hmoves.next_le
      · exact h.mono hprep.next_le le_rfl
  | logic _ _ hr ihl _ => exact ihl fun h => hx (h.mono le_rfl hr.next_le)
  | logicMoved _ hl hr _ hfresh ihl ihr =>
      have hname := hfresh.ne (hl.next_le.trans hr.next_le) le_rfl hx
      have hfirst := ihl fun h => hx (h.mono le_rfl (hr.next_le.trans hfresh.next_lt.le))
      have hown := ihr fun h => hx (h.mono hl.next_le hfresh.next_lt.le)
      refine hfirst.append ((Leaves.assign _ hname).cons (Leaves.cons (Leaves.choose ?_) Leaves.nil))
      exact hown.append ((Leaves.assign _ hname).cons Leaves.nil)
  | snoc _ hx' ih _ => exact ih fun h => hx (h.mono le_rfl hx'.next_le)
  | snocMoved hprep hx' _ hmoves ih ih' =>
      have hfirst := ih fun h => hx (h.mono le_rfl (hx'.next_le.trans hmoves.next_le))
      have hmoved := hmoves.leaves (t := t) fun h =>
        hx (h.mono (hprep.next_le.trans hx'.next_le) le_rfl)
      have hown := ih' fun h => hx (h.mono hprep.next_le hmoves.next_le)
      exact (hfirst.append hmoved).append hown

/-! ## Moved operands -/

/-- After operands were moved, their values can be read off. -/
theorem Moves.matches {S : String → Prop} {w w' : World} (h : Moves T xs moves xs' T')
    (hS : ∀ x, S x → ¬Between T T' x) (hnames : ∀ x ∈ Expr.listNames xs, S x)
    (halike : Alike S w w') :
    Matches S (fun vs _ w₁ => xs'.map (atomValue w₁.vars) = vs)
      (evalExprs t xs w) (runStmts t moves w') := by
  induction h generalizing w w' with
  | nil =>
      rw [evalExprs, runStmts]
      exact .ok halike rfl
  | @keep _ _ x _ _ moves hx _ ih =>
      simp only [Expr.listNames, List.mem_append] at hnames
      have hread : ∀ y ∈ x.names, S y := fun y hy => hnames y (Or.inl hy)
      rw [evalExprs, run_bind_ok w (evalExpr_atom t w hx), ← bind_pure (runStmts t moves)]
      refine (ih hS (fun y hy => hnames y (Or.inr hy)) (halike.history _ _)).bind ?_
      intro vs _ w₁ w₁' hrun _ halike₁ hvs
      refine .ok halike₁ ?_
      rw [List.map_cons, hvs, atomValue_congr fun y hy => (halike₁.vars y (hread y hy)).symm,
        vars_eq_of_ok hrun]
  | @move _ _ _ x _ _ moves temp hx hfresh hrest ih =>
      simp only [Expr.listNames, List.mem_append] at hnames
      have hname : ¬S temp.name := fun h => hS _ h (hfresh.between.mono le_rfl hrest.next_le)
      rw [evalExprs, runStmts, runStmt, bind_assoc, ← bind_pure (runStmts t moves)]
      refine (same_evalExpr (fun y hy => hnames y (Or.inl hy)) halike).bind ?_
      rintro v _ w₁ w₁' - - halike₁ rfl
      rw [run_bind_ok w₁' (run_assignVar w₁' temp.name v)]
      refine (ih (fun y hy h => hS y hy (h.mono hfresh.next_lt.le le_rfl))
        (fun y hy => hnames y (Or.inr hy))
        (halike₁.assign_right hname v)).bind ?_
      intro vs _ w₂ w₂' _ hrun halike₂ hvs
      refine .ok halike₂ ?_
      have hvalue := (hrest.leaves fun h => hfresh.between.disjoint le_rfl h).of_ok hrun
      rw [List.map_cons, hvs, use, atomValue, hvalue, World.vars_assign, Function.update_self]

section

variable {F : Event → Prop} {S : String → Prop} {w w' : World}

/-- Where operands can be evaluated, they can be moved as well. -/
theorem mimics_held (h : Mimics F S (evalExprs t es) (do runStmts t first; evalExprs t xs))
    (hmoves : Moves T xs moves xs' T') (hS : ∀ x, S x → ¬Between T T' x)
    (hnames : ∀ x ∈ Expr.listNames xs, ¬Between T T' x) (halike : Alike S w w')
    (hfair : Throughout F (evalExprs t es w)) :
    Matches S (fun vs _ w₁ => xs'.map (atomValue w₁.vars) = vs)
      (evalExprs t es w) (runStmts t (first ++ moves) w') := by
  have hmoved : Matches (fun x => ¬Between T T' x)
      (fun vs _ w₁ => xs'.map (atomValue w₁.vars) = vs)
      ((do runStmts t first; evalExprs t xs) w') (runStmts t (first ++ moves) w') := by
    rw [runStmts_append]
    refine Matches.after (runStmts t first) fun _ w₁ _ => ?_
    exact hmoves.matches (fun _ h => h) hnames (Alike.refl w₁)
  exact (h w w' halike hfair).trans (hmoved.mono hS fun _ _ _ h => h)

/-- Operands that were moved have the values of the operands of the source. -/
theorem mimics_moved (h : Mimics F S (evalExprs t es) (do runStmts t first; evalExprs t xs))
    (hmoves : Moves T xs moves xs' T') (hS : ∀ x, S x → ¬Between T T' x)
    (hnames : ∀ x ∈ Expr.listNames xs, ¬Between T T' x) :
    Mimics F S (evalExprs t es) (do runStmts t (first ++ moves); evalExprs t xs') := by
  intro w w' halike hfair
  rw [← bind_pure (evalExprs t es)]
  refine (mimics_held h hmoves hS hnames halike hfair).bind ?_
  intro vs _ w₁ w₁' _ _ halike₁ hvs
  rw [evalExprs_atoms t w₁' hmoves.atomic, hvs]
  exact .ok (halike₁.history _ _) rfl

/-- A further operand that needs statements, after the operands before it were moved. -/
theorem mimics_snocMoved {e x : Expr} {own : List Stmt}
    (hes : Mimics F S (evalExprs t es) (do runStmts t first; evalExprs t xs))
    (he : Mimics F S (evalExprs t [e]) (do runStmts t own; evalExprs t [x]))
    (hmoves : Moves T xs moves xs' T') (hS : ∀ y, S y → ¬Between T T' y)
    (hnames : ∀ y ∈ Expr.listNames xs, ¬Between T T' y)
    (hkept : ∀ y ∈ Expr.listNames xs', Leaves y (runStmts t own)) :
    Mimics F S (evalExprs t (es ++ [e]))
      (do runStmts t (first ++ moves ++ own); evalExprs t (xs' ++ [x])) := by
  rw [evalExprs_append, evalExprs_append, runStmts_append (first ++ moves), bind_assoc]
  refine Mimics.bind_of_matches (fun w w' => mimics_held hes hmoves hS hnames) ?_
  intro vs _ w w' halike hvs hfair
  -- The values that were moved are read only after the statements of the last operand.
  have hread : Same S ((do runStmts t own; let v ← evalExprs t [x]; return vs ++ v) w')
      ((do
        runStmts t own
        let us ← evalExprs t xs'
        let v ← evalExprs t [x]
        return us ++ v) w') := by
    refine Matches.after (runStmts t own) fun _ w₁ hrun => ?_
    have hvs' : xs'.map (atomValue w₁.vars) = vs := by
      rw [← hvs]
      refine List.map_congr_left fun y hy => atomValue_congr fun z hz => ?_
      exact (hkept z (Expr.mem_listNames.mpr ⟨y, hy, hz⟩)).of_ok hrun
    have hlast : Mimics (fun _ => True) (fun _ => True)
        (do return vs ++ (← evalExprs t [x])) (do return vs ++ (← evalExprs t [x])) :=
      (mimics_evalExprs fun _ _ => trivial).bind fun v => Mimics.pure _
    rw [run_bind_ok w₁ (evalExprs_atoms t w₁ hmoves.atomic), hvs']
    exact (hlast w₁ _ ((Alike.refl w₁).history _ _) fun _ _ => trivial).mono
      (fun _ _ => trivial) fun _ _ _ h => h
  refine Same.trans ?_ hread
  rw [← bind_assoc]
  exact (he.bind fun v => Mimics.pure (vs ++ v)) w w' halike hfair

theorem mimics_single {e x : Expr} {c : Eval Unit}
    (h : Mimics F S (evalExprs t [e]) (do c; evalExprs t [x])) :
    Mimics F S (evalExpr t e) (do c; evalExpr t x) := by
  rw [evalExprs_singleton, evalExprs_singleton, ← bind_assoc] at h
  exact Mimics.of_map (g := fun v => [v]) (fun _ _ heq => (List.cons.inj heq).1) h

theorem mimics_list {e x : Expr} {c : Eval Unit}
    (h : Mimics F S (evalExpr t e) (do c; evalExpr t x)) :
    Mimics F S (evalExprs t [e]) (do c; evalExprs t [x]) := by
  rw [evalExprs_singleton, evalExprs_singleton, ← bind_assoc]
  exact Mimics.bind h fun _ => Mimics.pure _

end

/-! ## Operations -/

/-- Apply an operation that evaluates all its operands to their values. -/
def operate (t : Target) (e : Expr) (values : List UInt64) : Eval UInt64 :=
  match e, values with
  | .unary _ op _, [x] => return unaryValue op x
  | .binary _ op left _, [x, y] => return binaryValue op left.ty x y
  | .call _ name args, values => callValue name args values
  | .arrayLit _ elemTy _, values => makeList t elemTy values
  | .arrayFill ty _ _, [n, v] => makeFill t (elemOf ty) n v
  | .index _ array _, [a, i] => readElem t (elemOf array.ty) a i
  | _, _ => return 0

instance (e : Expr) (values : List UInt64) : Runs True True (operate t e values) := by
  unfold operate
  split <;> infer_instance

instance (e : Expr) (values : List UInt64) : Blind (operate t e values) := by
  unfold operate
  split <;> infer_instance

theorem SameNode.eval {array : Bool} {e e' : Expr} (h : SameNode array e es e' xs) :
    evalExpr t e = (do operate t e (← evalExprs t es)) ∧
      evalExpr t e' = (do operate t e' (← evalExprs t xs)) := by
  cases h with
  | binary hand hor =>
      rw [evalExpr_strict t hand hor, evalExpr_strict t hand hor]
      simp [evalExprs, operate]
  | unary | call | arrayLit | arrayFill | index => simp [evalExpr, evalExprs, operate]

/-- A call depends on the types of its arguments and on their values. -/
theorem callValue_congr {name : String} {args args' : List Expr}
    (h : args'.map Expr.ty = args.map Expr.ty) (values : List UInt64) :
    callValue name args values = callValue name args' values := by
  unfold callValue
  rcases args with _ | ⟨x, _ | ⟨y, rest⟩⟩
  · rw [List.map_eq_nil_iff.mp h]
  · obtain ⟨x', rest', rfl, hx, hrest⟩ := List.map_eq_cons_iff.mp h
    rw [List.map_eq_nil_iff.mp hrest]
    rcases Builtin.ofText? name with _ | _ | _ | _ <;> rcases values with _ | ⟨v, _ | _⟩ <;>
      simp [hx]
  · obtain ⟨x', rest', rfl, -, hrest⟩ := List.map_eq_cons_iff.mp h
    obtain ⟨y', rest'', rfl, -, -⟩ := List.map_eq_cons_iff.mp hrest
    rcases Builtin.ofText? name with _ | _ | _ | _ <;> rcases values with _ | ⟨v, _ | _⟩ <;> rfl

theorem SameNode.operate {array : Bool} {e e' : Expr} (h : SameNode array e es e' xs)
    (hty : xs.map Expr.ty = es.map Expr.ty) : operate t e = operate t e' := by
  funext values
  cases h with
  | arrayLit => rfl
  | unary => rcases values with _ | ⟨x, _ | _⟩ <;> rfl
  | arrayFill => rcases values with _ | ⟨x, _ | ⟨y, _ | _⟩⟩ <;> rfl
  | binary | index =>
      obtain ⟨hleft, -⟩ := List.cons.inj hty
      rcases values with _ | ⟨x, _ | ⟨y, _ | _⟩⟩ <;> simp [NormalForm.operate, hleft]
  | call => exact callValue_congr hty values

/-- An operation on operands that mimic each other. -/
theorem SameNode.mimics {array : Bool} {e e' : Expr} {F : Event → Prop} {S : String → Prop}
    (h : SameNode array e es e' xs) (hty : xs.map Expr.ty = es.map Expr.ty)
    (hes : Mimics F S (evalExprs t es) (do runStmts t first; evalExprs t xs)) :
    Mimics F S (evalExprs t [e]) (do runStmts t first; evalExprs t [e']) := by
  refine mimics_list ?_
  rw [h.eval.1, h.eval.2, ← bind_assoc, h.operate hty]
  exact hes.bind fun values => Mimics.of_blind _

/-! ## Operands that are needed or not -/

theorem evalExpr_logic {ty : Ty} {op : BinaryOp} {l r : Expr} (hop : op = .and ∨ op = .or) :
    evalExpr t (.binary ty op l r) = do
      let x ← evalExpr t l
      note (.choice op r x)
      if needed op x then evalExpr t r else return ofBool (truth x) := by
  rcases hop with rfl | rfl
  · rw [evalExpr]
    refine bind_congr fun x => bind_congr fun _ => ?_
    cases h : truth x <;> simp [needed, h, ofBool]
  · rw [evalExpr]
    refine bind_congr fun x => bind_congr fun _ => ?_
    cases h : truth x <;> simp [needed, h, ofBool]

theorem run_choose (op : BinaryOp) (temp : Binding) (rest : List Stmt) (w : World) :
    runStmt t (choose op temp rest) w =
      (if needed op (w.vars temp.name) then runStmts t rest else pure ())
        (w.note (.read temp.name)) := by
  have hholds : holds t (use temp) w =
      .ok (truth (w.vars temp.name)) (w.note (.read temp.name)) := by
    rw [holds, use, evalExpr, run_bind_ok w (run_readVar w temp.name), run_pure]
  rw [choose, needed]
  cases h : truth (w.vars temp.name) <;> split <;>
    simp [runStmt, runStmts, run_bind_ok w hholds, h]

/-- A temporary that holds the left operand and then, if it is needed, the right one has the value
of the operation. -/
theorem mimics_choice {S : String → Prop} {op : BinaryOp} {temp : Binding} {r r' : Expr}
    {own : List Stmt} (hr : Mimics Fair S (evalExpr t r) (do runStmts t own; evalExpr t r'))
    (htemp : ¬S temp.name) (hnormal : r.isNormal = false) (x : UInt64) :
    Mimics Fair S
      (do note (.choice op r x); if needed op x then evalExpr t r else return ofBool (truth x))
      (do
        assignVar temp.name x
        runStmt t (choose op temp (own ++ [.assign temp.name r']))
        evalExpr t (use temp)) := by
  intro w w' halike hfair
  rw [run_bind_ok w (run_note w _)] at hfair ⊢
  rw [run_bind_ok w' (run_assignVar w' _ _), run_bind, run_choose, World.vars_assign,
    Function.update_self]
  have halike₁ : Alike S (w.note (.choice op r x))
      ((w'.assign temp.name x).note (.read temp.name)) :=
    (halike.assign_right htemp x).history _ _
  by_cases hneeded : needed op x = true
  · rw [if_pos hneeded] at hfair ⊢
    rw [if_pos hneeded, ← run_bind, runStmts_append, runStmts_singleton, runStmt,
      ← bind_assoc (runStmts t own), bind_assoc, ← bind_pure (evalExpr t r)]
    refine (hr _ _ halike₁ hfair).bind ?_
    rintro v _ w₁ w₁' - - halike₂ rfl
    rw [run_bind_ok w₁' (run_assignVar w₁' _ _), use, evalExpr, run_readVar, World.vars_assign,
      Function.update_self]
    exact .ok ((halike₂.assign_right htemp v).history _ _) rfl
  · rw [if_neg hneeded] at hfair ⊢
    have hchoice : x = ofBool (truth x) :=
      hfair (.choice op r x) (by simp [endWorld]) hnormal (Bool.not_eq_true _ ▸ hneeded)
    have hread : evalExpr t (use temp) ((w'.assign temp.name x).note (.read temp.name)) =
        .ok x (((w'.assign temp.name x).note (.read temp.name)).note (.read temp.name)) := by
      rw [use, evalExpr, run_readVar, World.vars_note, World.vars_assign, Function.update_self]
    rw [if_neg hneeded, run_pure, run_pure]
    show Same S _ (evalExpr t (use temp) _)
    rw [hread]
    exact .ok (halike₁.history _ _) hchoice.symm

theorem runStmts_logicMoved (op : BinaryOp) (temp : Binding) (l r : Expr) (first own : List Stmt) :
    (do
      runStmts t (first ++
        [Stmt.assign temp.name l, choose op temp (own ++ [Stmt.assign temp.name r])])
      evalExpr t (use temp)) = (do
      let x ← (do runStmts t first; evalExpr t l)
      assignVar temp.name x
      runStmt t (choose op temp (own ++ [Stmt.assign temp.name r]))
      evalExpr t (use temp)) := by
  simp [runStmts_append, runStmts, runStmt, bind_assoc]

/-! ## Operands of the source -/

section

variable {tier : Tier} {vars : Env} {tys : List Ty}

theorem Prepares.not_between {U U' : Temps} (h : Prepares T es first xs T')
    (hes : ∀ x ∈ Expr.listNames es, ¬IsTemp x) (hle : T'.next ≤ U.next) :
    ∀ x ∈ Expr.listNames xs, ¬Between U U' x := by
  intro x hx hbetween
  rcases h.names x hx with hx | hx
  · exact hes x hx hbetween.isTemp
  · exact hx.disjoint hle hbetween

/-- Prepared operands have the values of the operands of the source, after the same effects. -/
theorem Prepares.mimics (h : Prepares T es first xs T') (hvars : EnvOk vars) (hT : T.Ordered)
    (htyped : List.Forall₂ (HasType tier vars) es tys)
    (hvalue : ∀ ty ∈ tys.dropLast, IsValue ty) :
    Mimics Fair (fun x => ¬IsTemp x) (evalExprs t es)
      (do runStmts t first; evalExprs t xs) := by
  have hS {U U' : Temps} : ∀ x, ¬IsTemp x → ¬Between U U' x := fun _ h h' => h h'.isTemp
  induction h generalizing tys with
  | nil =>
      rw [runStmts, pure_bind]
      exact mimics_evalExprs (by simp [Expr.listNames])
  | atom he =>
      rw [runStmts, pure_bind]
      exact mimics_evalExprs (not_isTemp_of_mem_names hvars htyped)
  | node hnode hprep ih =>
      cases htyped with
      | cons he hnil =>
          obtain ⟨tys, hes, hvalues, -⟩ := hnode.typed he
          have hvalues' : ∀ ty ∈ tys.dropLast, IsValue ty :=
            fun ty hty => hvalues ty (List.dropLast_subset _ hty)
          have hty := map_ty_eq (hprep.typed hvars hT hes hvalues').2
          exact hnode.mimics (hty.trans (map_ty_eq hes).symm) (ih hT hes hvalues')
  | arrayNode hnode hprep hmoves ih =>
      cases htyped with
      | cons he hnil =>
          obtain ⟨tys, hes, hvalues, -⟩ := hnode.typed he
          have hvalues' : ∀ ty ∈ tys.dropLast, IsValue ty :=
            fun ty hty => hvalues ty (List.dropLast_subset _ hty)
          have htyped := (hprep.typed hvars hT hes hvalues').2
          have hty := map_ty_eq (hmoves.typed hvars (hprep.ordered hT) htyped hvalues).2
          refine hnode.mimics (hty.trans (map_ty_eq hes).symm) ?_
          exact mimics_moved (ih hT hes hvalues') hmoves hS
            (hprep.not_between (not_isTemp_of_mem_names hvars hes) le_rfl)
  | logic hop hl hr ihl ihr =>
      cases htyped with
      | cons he hnil =>
          obtain ⟨rfl, rfl, hleft, hright⟩ := he.logic_inv hop
          have hl' := mimics_single (ihl hT (.cons hleft .nil) (by simp))
          have hr' := mimics_single (ihr (hl.ordered hT) (.cons hright .nil) (by simp))
          rw [runStmts, pure_bind] at hr'
          refine mimics_list ?_
          rw [evalExpr_logic hop, evalExpr_logic hop, ← bind_assoc]
          refine hl'.bind fun x => (Mimics.note _ _).bind fun _ => ?_
          split
          · exact hr'
          · exact Mimics.pure _
  | @logicMoved _ _ _ _ _ op l r l' r' first own temp hop hl hr hown hfresh ihl ihr =>
      cases htyped with
      | cons he hnil =>
          obtain ⟨rfl, rfl, hleft, hright⟩ := he.logic_inv hop
          have hl' := mimics_single (ihl hT (.cons hleft .nil) (by simp))
          have hr' := mimics_single (ihr (hl.ordered hT) (.cons hright .nil) (by simp))
          refine mimics_list ?_
          rw [evalExpr_logic hop, runStmts_logicMoved]
          exact hl'.bind (mimics_choice hr' (not_not_intro hfresh.between.isTemp)
            (hr.not_isNormal hown))
  | snoc hprep hx ih ih' =>
      obtain ⟨tys, ty, rfl, hes, he⟩ := exists_of_forall₂_concat htyped
      rw [List.dropLast_concat] at hvalue
      have hes' := ih hT hes fun ty hty => hvalue ty (List.dropLast_subset _ hty)
      have he' := ih' (hprep.ordered hT) (.cons he .nil) (by simp)
      rw [runStmts, pure_bind] at he'
      rw [evalExprs_append, evalExprs_append, ← bind_assoc]
      exact hes'.bind fun vs => he'.bind fun v => Mimics.pure _
  | snocMoved hprep hx _ hmoves ih ih' =>
      obtain ⟨tys, ty, rfl, hes, he⟩ := exists_of_forall₂_concat htyped
      rw [List.dropLast_concat] at hvalue
      have hes' := ih hT hes fun ty hty => hvalue ty (List.dropLast_subset _ hty)
      have he' := ih' (hprep.ordered hT) (.cons he .nil) (by simp)
      have hsource := not_isTemp_of_mem_names hvars hes
      refine mimics_snocMoved hes' he' hmoves hS (hprep.not_between hsource hx.next_le) ?_
      intro y hy
      refine hx.leaves fun hbetween => ?_
      rcases hmoves.names y hy with hy | hy
      · exact hprep.not_between hsource le_rfl y hy hbetween
      · exact hbetween.disjoint le_rfl hy

end

end ArrayLang.NormalForm
