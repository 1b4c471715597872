import ArrayLang.Proofs.NormalForm.Meets

/-!
# What makes the first array

A run that makes an array, or a part of one, has met an initialiser before it made anything.
-/

namespace ArrayLang.NormalForm

open Source Code Machine Emit Reference

/-- No part of an array was made so far. -/
def Unmade (w : World) : Prop :=
  ∀ event ∈ w.history, (∀ x, event ≠ .made x) ∧ ∀ array a, event ≠ .access .make array a

/-- A computation makes no part of an array. -/
class Quiet {α : Type} (c : Eval α) : Prop where
  unmade : ∀ w, Unmade w → Unmade (endWorld (c w))

section

variable {α β : Type} {w : World}

theorem Unmade.arrays (h : Unmade w) : w.arrays = [] := by
  rw [World.arrays, List.filterMap_eq_nil_iff]
  intro event hevent
  cases event with
  | made x => exact absurd rfl ((h _ hevent).1 x)
  | _ => rfl

theorem Unmade.note {event : Event} (h : Unmade w) (hmade : ∀ x, event ≠ .made x)
    (hmake : ∀ array a, event ≠ .access .make array a) : Unmade (w.note event) := by
  intro e he
  rcases List.mem_append.mp he with hold | hlast
  · exact h e hold
  · obtain rfl := List.mem_singleton.mp hlast
    exact ⟨hmade, hmake⟩

/-- What comes after a computation that makes nothing. -/
theorem unmade_or_bind {x : Eval α} {f : α → Eval β} {P : Prop}
    (hx : Unmade (endWorld (x w)) ∨ P)
    (hf : ∀ a w', x w = .ok a w' → Unmade w' → Unmade (endWorld (f a w')) ∨ P) :
    Unmade (endWorld ((x >>= f) w)) ∨ P := by
  refine hx.elim (fun hunmade => ?_) .inr
  rw [run_bind]
  cases hrun : x w with
  | error why w' =>
      rw [hrun] at hunmade
      exact .inl hunmade
  | ok a w' =>
      rw [hrun] at hunmade
      exact hf a w' hrun hunmade

/-! ## Computations that make nothing -/

instance (a : α) : Quiet (pure a : Eval α) := ⟨fun _ h => h⟩

instance (x : Eval α) (f : α → Eval β) [hx : Quiet x] [hf : ∀ a, Quiet (f a)] :
    Quiet (x >>= f) := by
  refine ⟨fun w h => ?_⟩
  have hbind := unmade_or_bind (P := False) (f := f) (.inl (hx.unmade w h))
    fun a w' _ hunmade => .inl ((hf a).unmade w' hunmade)
  exact hbind.resolve_right id

instance (name : String) : Quiet (readVar name) := ⟨fun _ h => h.note (by simp) (by simp)⟩

instance (name : String) (value : UInt64) : Quiet (assignVar name value) :=
  ⟨fun _ h => h.note (by simp) (by simp)⟩

theorem quiet_load {purpose : Purpose} (hpurpose : purpose ≠ .make) (array : UInt32) (ty : ValType)
    (address : UInt32) : Quiet (load purpose array ty address) := by
  refine ⟨fun w h => ?_⟩
  have hnote : Unmade (w.note (.access purpose array (.load ty address))) :=
    h.note (by simp) (by simpa using fun hmake => absurd hmake hpurpose)
  rw [run_load]
  split
  · exact hnote
  · exact hnote

instance (array : UInt32) (ty : ValType) (address : UInt32) (value : UInt64) :
    Quiet (store .write array ty address value) := by
  refine ⟨fun w h => ?_⟩
  have hnote : Unmade (w.note (.access .write array (.store ty address))) :=
    h.note (by simp) (by simp)
  rw [run_store]
  split
  · exact hnote
  · exact hnote

instance (ok : Bool) (msg : Message) : Quiet (require ok msg) := by
  refine ⟨fun w h => ?_⟩
  cases ok with
  | true => exact h
  | false =>
      rw [run_require_false, run_report]
      dsimp only
      split
      · exact h
      · exact h

instance (ty : Ty) (value : UInt64) : Quiet (print ty value) := ⟨fun _ h => h⟩

instance : Quiet input := by
  refine ⟨fun w h => ?_⟩
  cases hread : w.console.input.readInt with
  | mk answer rest =>
      cases answer with
      | ok value =>
          rw [run_input_ok w hread]
          exact h
      | error e =>
          rw [run_input_error w hread]
          exact h

theorem quiet_lengthAt {purpose : Purpose} (hpurpose : purpose ≠ .make) (array : UInt64) :
    Quiet (lengthAt purpose array) := by
  have := quiet_load hpurpose
  rw [lengthAt]
  infer_instance

theorem quiet_locate {t : Target} {purpose : Purpose} (hpurpose : purpose ≠ .make) (elem : Ty)
    (array index : UInt64) : Quiet (locate t purpose elem array index) := by
  have := quiet_lengthAt hpurpose
  rw [locate]
  unfold checkIndex
  infer_instance

instance (name : String) (args : List Expr) (values : List UInt64) :
    Quiet (callValue name args values) := by
  have := quiet_lengthAt (show Purpose.length ≠ .make by simp)
  unfold callValue
  split <;> infer_instance

instance (t : Target) (elem : Ty) (array index : UInt64) : Quiet (readElem t elem array index) := by
  have hread : Purpose.read ≠ .make := by simp
  have := quiet_locate (t := t) hread
  have := quiet_load hread
  rw [readElem]
  infer_instance

end

/-! ## Expressions -/

/-- The first array that is made is made by an initialiser that evaluating an expression comes
to. -/
def First (t : Target) (e : Expr) (w : World) : Prop :=
  ∃ e' w' request, Meets t e w e' w' ∧ Unmade w' ∧ asked? w'.vars e' = some request

section

variable {t : Target} {w : World}

theorem First.operand {e x : Expr} {before after : List Expr} {values : List UInt64} {w₁ : World}
    (h : First t x w₁) (hoperands : operands e = before ++ x :: after)
    (hbefore : evalExprs t before w = .ok values w₁) : First t e w := by
  obtain ⟨e', w', request, hmeets, h⟩ := h
  exact ⟨e', w', request, .operand hoperands hbefore hmeets, h⟩

/-- Operands make nothing unless one of them meets an initialiser. -/
theorem unmade_or_operand {es : List Expr}
    (h : ∀ e ∈ es, ∀ w, Unmade w → Unmade (endWorld (evalExpr t e w)) ∨ First t e w)
    (hw : Unmade w) :
    Unmade (endWorld (evalExprs t es w)) ∨
      ∃ before x after values w₁, es = before ++ x :: after ∧
        evalExprs t before w = .ok values w₁ ∧ First t x w₁ := by
  induction es generalizing w with
  | nil => exact .inl hw
  | cons e rest ih =>
      obtain ⟨he, hrest⟩ := List.forall_mem_cons.mp h
      rw [evalExprs]
      refine unmade_or_bind ((he w hw).imp_right fun hfirst => ?_) fun v w₁ hv hw₁ => ?_
      · exact ⟨[], e, rest, [], w, rfl, rfl, hfirst⟩
      refine unmade_or_bind ((ih hrest hw₁).imp_right ?_) fun _ _ _ hw₂ => .inl hw₂
      rintro ⟨before, x, after, values, w₂, rfl, hbefore, hfirst⟩
      refine ⟨e :: before, x, after, v :: values, w₂, rfl, ?_, hfirst⟩
      rw [evalExprs, run_bind_ok w hv, run_bind_ok w₁ hbefore, run_pure]

theorem quiet_operate {e : Expr} (h : ∀ vars, asked? vars e = none) (values : List UInt64) :
    Quiet (operate t e values) := by
  unfold operate
  split
  · infer_instance
  · infer_instance
  · infer_instance
  · cases h fun _ => 0
  · cases h fun _ => 0
  · infer_instance
  · infer_instance

theorem unmade_or_first_of_node {array : Bool} {e : Expr}
    (hnode : SameNode array e (operands e) e (operands e)) (hasked : ∀ vars, asked? vars e = none)
    (h : ∀ x ∈ operands e, ∀ w, Unmade w → Unmade (endWorld (evalExpr t x w)) ∨ First t x w)
    (hw : Unmade w) : Unmade (endWorld (evalExpr t e w)) ∨ First t e w := by
  rw [hnode.eval.1]
  refine unmade_or_bind ((unmade_or_operand h hw).imp_right ?_)
    fun values w₁ _ hw₁ => .inl ((quiet_operate hasked values).unmade w₁ hw₁)
  rintro ⟨before, x, after, values, w₁, hoperands, hbefore, hfirst⟩
  exact hfirst.operand hoperands hbefore

/-- Evaluating an expression makes nothing unless it meets an initialiser. -/
theorem unmade_or_first (e : Expr) :
    ∀ w, Unmade w → Unmade (endWorld (evalExpr t e w)) ∨ First t e w := by
  induction e with
  | missing | int | bool => exact fun w hw => .inl hw
  | var ty name =>
      intro w hw
      rw [evalExpr]
      exact .inl (Quiet.unmade w hw)
  | arrayLit | arrayFill => exact fun w hw => .inr ⟨_, w, _, .here _ w, hw, rfl⟩
  | unary ty op x ih =>
      exact fun w => unmade_or_first_of_node .unary (fun _ => rfl) (by simpa [operands] using ih)
  | call ty name args ih => exact fun w => unmade_or_first_of_node .call (fun _ => rfl) ih
  | index ty a i iha ihi =>
      exact fun w => unmade_or_first_of_node .index (fun _ => rfl)
        (by simpa [operands] using ⟨iha, ihi⟩)
  | binary ty op l r ihl ihr =>
      intro w hw
      by_cases hop : op = .and ∨ op = .or
      · rw [evalExpr_logic hop]
        have hoperands : operands (.binary ty op l r) = [] ++ l :: [] := operands_logic hop
        have hleft (h : First t l w) : First t (.binary ty op l r) w := h.operand hoperands rfl
        refine unmade_or_bind ((ihl w hw).imp_right hleft) fun value w₁ hvalue hw₁ => ?_
        have hw₂ : Unmade (w₁.note (.choice op r value)) := hw₁.note (by simp) (by simp)
        refine unmade_or_bind (.inl hw₂) ?_
        rintro _ _ ⟨⟩ -
        split
        · next hneeded =>
            refine (ihr _ hw₂).imp_right ?_
            rintro ⟨e', w', request, hmeets, h⟩
            exact ⟨e', w', request, .right hop hvalue hneeded hmeets, h⟩
        · exact .inl hw₂
      · obtain ⟨hand, hor⟩ := not_or.mp hop
        have hoperands : operands (.binary ty op l r) = [l, r] := operands_strict hop
        have hnode : SameNode false (.binary ty op l r) (operands (.binary ty op l r))
            (.binary ty op l r) (operands (.binary ty op l r)) := by
          rw [hoperands]
          exact .binary hand hor
        refine unmade_or_first_of_node hnode (fun _ => rfl) ?_ hw
        rw [hoperands]
        simpa using ⟨ihl, ihr⟩

end

/-! ## Statements -/

/-- The first array that is made is made by an initialiser that running statements comes to. -/
def RunFirst (t : Target) (stmts : List Stmt) (w : World) : Prop :=
  ∃ e w' request, RunMeets t stmts w e w' ∧ Unmade w' ∧ asked? w'.vars e = some request

section

variable {t : Target} {w w₁ w₂ : World} {s : Stmt} {rest : List Stmt}

theorem First.stmt {e : Expr} (h : First t e w₁)
    (hs : ∀ e' w', Meets t e w₁ e' w' → StmtMeets t s w e' w') : RunFirst t [s] w := by
  obtain ⟨e', w', request, hmeets, h⟩ := h
  exact ⟨e', w', request, ⟨s, [], w, .here _ w, hs e' w' hmeets⟩, h⟩

theorem RunFirst.cons (h : RunFirst t [s] w) : RunFirst t (s :: rest) w := by
  obtain ⟨e, w', request, ⟨s', left, w₁, hpasses, hs⟩, h⟩ := h
  refine ⟨e, w', request, ?_, h⟩
  cases hpasses with
  | here => exact ⟨s, rest, w, .here _ w, hs⟩
  | after _ hnil => exact nomatch hnil
  | inThen hcond hbody => exact ⟨s', left, w₁, .inThen hcond hbody, hs⟩
  | inElse hcond hbody => exact ⟨s', left, w₁, .inElse hcond hbody, hs⟩
  | inLoop hiter hfuel hcond hbody => exact ⟨s', left, w₁, .inLoop hiter hfuel hcond hbody, hs⟩

theorem RunFirst.mono {stmts stmts' : List Stmt} (h : RunFirst t stmts w₁)
    (hpasses : ∀ left w', Passes t stmts w₁ left w' → Passes t stmts' w left w') :
    RunFirst t stmts' w := by
  obtain ⟨e, w', request, ⟨s, left, w₂, hstmts, hs⟩, h⟩ := h
  exact ⟨e, w', request, ⟨s, left, w₂, hpasses _ _ hstmts, hs⟩, h⟩

/-- What a loop meets in a later iteration it meets. -/
theorem RunFirst.iterate {cond : Expr} {body : List Stmt} (hfuel : w.fuel ≠ 0)
    (hcond : holds t cond { w with fuel := w.fuel - 1 } = .ok true w₁)
    (hbody : runStmts t body w₁ = .ok () w₂) (h : RunFirst t [.whileDo cond body] w₂) :
    RunFirst t [.whileDo cond body] w := by
  obtain ⟨e, w', request, ⟨s, left, w₃, hpasses, hs⟩, h⟩ := h
  refine ⟨e, w', request, ?_, h⟩
  cases hpasses with
  | here =>
      cases hs with
      | whileDo hiter hfuel' hmeets =>
          exact ⟨_, [], w, .here _ w, .whileDo (.step hfuel hcond hbody hiter) hfuel' hmeets⟩
  | after _ hnil => exact nomatch hnil
  | inLoop hiter hfuel' hcond' hpasses =>
      exact ⟨s, left, w₃, .inLoop (.step hfuel hcond hbody hiter) hfuel' hcond' hpasses, hs⟩

theorem unmade_or_first_stmts {stmts : List Stmt}
    (h : ∀ s ∈ stmts, ∀ w, Unmade w → Unmade (endWorld (runStmt t s w)) ∨ RunFirst t [s] w) :
    ∀ w, Unmade w → Unmade (endWorld (runStmts t stmts w)) ∨ RunFirst t stmts w := by
  induction stmts with
  | nil => exact fun w hw => .inl hw
  | cons s rest ih =>
      intro w hw
      obtain ⟨hs, hrest⟩ := List.forall_mem_cons.mp h
      rw [runStmts]
      refine unmade_or_bind ((hs w hw).imp_right RunFirst.cons) fun _ w₁ hrun hw₁ => ?_
      exact (ih hrest w₁ hw₁).imp_right fun hfirst => hfirst.mono fun _ _ => .after hrun

theorem unmade_or_first_holds (cond : Expr) (hw : Unmade w) :
    Unmade (endWorld (holds t cond w)) ∨ First t cond w := by
  rw [holds]
  exact unmade_or_bind (unmade_or_first cond w hw) fun _ _ _ hw₁ => .inl hw₁

theorem unmade_or_first_loop {cond : Expr} {body : List Stmt}
    (h : ∀ w, Unmade w → Unmade (endWorld (runStmts t body w)) ∨ RunFirst t body w) (bound : Nat)
    (hw : Unmade w) :
    Unmade (endWorld (loop (holds t cond) (runStmts t body) bound w)) ∨
      RunFirst t [.whileDo cond body] w := by
  induction bound generalizing w with
  | zero => exact .inl hw
  | succ bound ih =>
      rw [loop_add_one, run_bind, run_tick]
      by_cases hfuel : w.fuel = 0
      · rw [if_pos hfuel]
        exact .inl hw
      · rw [if_neg hfuel]
        dsimp only
        have hticked : Unmade { w with fuel := w.fuel - 1 } := hw
        have hcond : _ ∨ RunFirst t [.whileDo cond body] w :=
          (unmade_or_first_holds cond hticked).imp_right fun hfirst =>
            hfirst.stmt fun _ _ => .whileDo (.refl w) hfuel
        refine unmade_or_bind hcond fun more w₁ hmore hw₁ => ?_
        cases more with
        | false => exact .inl hw₁
        | true =>
            rw [if_pos rfl]
            have hbody : _ ∨ RunFirst t [.whileDo cond body] w :=
              (h w₁ hw₁).imp_right fun hfirst =>
                hfirst.mono fun _ _ => .inLoop (.refl w) hfuel hmore
            refine unmade_or_bind hbody fun _ w₂ hrun hw₂ => ?_
            exact (ih hw₂).imp_right (RunFirst.iterate hfuel hmore hrun)

theorem unmade_or_first_stmt (s : Stmt) :
    ∀ w, Unmade w → Unmade (endWorld (runStmt t s w)) ∨ RunFirst t [s] w := by
  induction s with
  | missing => exact fun w hw => .inl hw
  | expr x =>
      intro w hw
      rw [runStmt]
      exact unmade_or_bind ((unmade_or_first x w hw).imp_right fun h => h.stmt fun _ _ => .expr)
        fun _ _ _ hw₁ => .inl hw₁
  | assign name x =>
      intro w hw
      rw [runStmt]
      exact unmade_or_bind ((unmade_or_first x w hw).imp_right fun h => h.stmt fun _ _ => .assign)
        fun v w₁ _ hw₁ => .inl (Quiet.unmade w₁ hw₁)
  | indexAssign array index value =>
      intro w hw
      rw [runStmt_indexAssign]
      refine unmade_or_bind ((unmade_or_operand (fun x _ => unmade_or_first x) hw).imp_right ?_)
        fun place w₁ hrun hw₁ => ?_
      · rintro ⟨before, x, after, values, w₁, hparts, hbefore, hfirst⟩
        exact hfirst.stmt fun _ _ => .place hparts hbefore
      · unfold storeAt
        split
        · next a i =>
            have hquiet : Quiet (locate t .write (elemOf array.ty) a i) := quiet_locate (by simp) ..
            refine unmade_or_bind (.inl (hquiet.unmade w₁ hw₁)) fun address w₂ hlocate hw₂ => ?_
            have hvalue := (unmade_or_first value w₂ hw₂).imp_right fun h =>
              h.stmt fun _ _ => .stored hrun hlocate
            exact unmade_or_bind hvalue fun v w₃ _ hw₃ => .inl (Quiet.unmade w₃ hw₃)
        · exact .inl hw₁
  | ifElse cond thenBody elseBody ihthen ihelse =>
      intro w hw
      rw [runStmt]
      have hcond : _ ∨ RunFirst t [.ifElse cond thenBody elseBody] w :=
        (unmade_or_first_holds cond hw).imp_right fun h => h.stmt fun _ _ => .ifElse
      refine unmade_or_bind hcond fun more w₁ hmore hw₁ => ?_
      cases more with
      | true =>
          exact (unmade_or_first_stmts ihthen w₁ hw₁).imp_right fun h =>
            h.mono fun _ _ => .inThen hmore
      | false =>
          exact (unmade_or_first_stmts ihelse w₁ hw₁).imp_right fun h =>
            h.mono fun _ _ => .inElse hmore
  | whileDo cond body ih =>
      intro w hw
      exact unmade_or_first_loop (unmade_or_first_stmts ih) w.fuel hw

/-- A run makes nothing unless it meets an initialiser before anything is made. -/
theorem unmade_or_runFirst (stmts : List Stmt) (hw : Unmade w) :
    Unmade (endWorld (runStmts t stmts w)) ∨ RunFirst t stmts w :=
  unmade_or_first_stmts (fun s _ => unmade_or_first_stmt s) w hw

end

end ArrayLang.NormalForm
