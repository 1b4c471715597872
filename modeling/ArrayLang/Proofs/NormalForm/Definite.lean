import ArrayLang.Proofs.NormalForm.Output

/-!
# Definite assignment

Whether a program assigns its temporaries before it reads them can be seen from its text: an
assignment counts from there on, a conditional assigns what both of its branches assign, and a loop
what is assigned before it.  Programs in normal form pass this test, although assignments are moved
into the branches that stand for `and` and `or`, and are repeated at the end of loop bodies.
-/

namespace ArrayLang.NormalForm

open Source Typing

/-- The temporaries among some names are all in `A`. -/
def Known (A : String → Prop) (names : List String) : Prop := ∀ x, IsTemp x → x ∈ names → A x

/-- If the temporaries in `A` are assigned before statements, the statements read temporaries only
after they were assigned, and the temporaries in `B` are assigned after them. -/
inductive Definite : (String → Prop) → List Stmt → (String → Prop) → Prop
  | nil {A B : String → Prop} : (∀ x, IsTemp x → B x → A x) → Definite A [] B
  | expr {A B : String → Prop} {x : Expr} {rest : List Stmt} :
      Known A x.names → Definite A rest B → Definite A (.expr x :: rest) B
  | assign {A B : String → Prop} {name : String} {v : Expr} {rest : List Stmt} :
      Known A v.names → Definite (fun x => A x ∨ x = name) rest B →
      Definite A (.assign name v :: rest) B
  | indexAssign {A B : String → Prop} {a i v : Expr} {rest : List Stmt} :
      Known A a.names → Known A i.names → Known A v.names → Definite A rest B →
      Definite A (.indexAssign a i v :: rest) B
  | ifElse {A B C : String → Prop} {cond : Expr} {thenBody elseBody rest : List Stmt} :
      Known A cond.names → Definite A thenBody B → Definite A elseBody B → Definite B rest C →
      Definite A (.ifElse cond thenBody elseBody :: rest) C
  | whileDo {A B : String → Prop} {cond : Expr} {body rest : List Stmt} :
      Known A cond.names → Definite A body A → Definite A rest B →
      Definite A (.whileDo cond body :: rest) B

/-! ## Rules -/

section

variable {A A' B B' C : String → Prop} {ss ss' : List Stmt} {names : List String}

theorem Known.mono (h : Known A names) (hA : ∀ x, IsTemp x → A x → A' x) : Known A' names :=
  fun x htemp hx => hA x htemp (h x htemp hx)

theorem Definite.weaken (h : Definite A ss B) (hB : ∀ x, IsTemp x → B' x → B x) :
    Definite A ss B' := by
  induction h generalizing B' with
  | nil hnil => exact .nil fun x htemp hx => hnil x htemp (hB x htemp hx)
  | expr hx _ ih => exact .expr hx (ih hB)
  | assign hv _ ih => exact .assign hv (ih hB)
  | indexAssign ha hi hv _ ih => exact .indexAssign ha hi hv (ih hB)
  | ifElse hcond hthen helse _ _ _ ih => exact .ifElse hcond hthen helse (ih hB)
  | whileDo hcond hbody _ _ ih => exact .whileDo hcond hbody (ih hB)

/-- With more temporaries assigned before, these are also assigned after. -/
theorem Definite.mono (h : Definite A ss B) (hA : ∀ x, IsTemp x → A x → A' x) :
    Definite A' ss fun x => B x ∨ A' x := by
  induction h generalizing A' with
  | nil hnil =>
      apply Definite.nil
      rintro x htemp (hx | hx)
      · exact hA x htemp (hnil x htemp hx)
      · exact hx
  | expr hx _ ih => exact .expr (hx.mono hA) (ih hA)
  | assign hv _ ih =>
      apply Definite.assign (hv.mono hA)
      apply (ih fun x htemp hx => hx.imp_left (hA x htemp)).weaken
      exact fun x _ hx => hx.imp_right Or.inl
  | indexAssign ha hi hv _ ih =>
      exact .indexAssign (ha.mono hA) (hi.mono hA) (hv.mono hA) (ih hA)
  | ifElse hcond _ _ _ ihthen ihelse ih =>
      apply Definite.ifElse (hcond.mono hA) (ihthen hA) (ihelse hA)
      apply (ih fun x _ hx => Or.inl hx).weaken
      exact fun x _ hx => hx.imp_right Or.inr
  | whileDo hcond _ _ ihbody ih =>
      apply Definite.whileDo (hcond.mono hA)
      · exact (ihbody hA).weaken fun x _ hx => Or.inr hx
      · exact ih hA

theorem Definite.append (h : Definite A ss B) (h' : Definite B ss' C) :
    Definite A (ss ++ ss') C := by
  induction h with
  | nil hnil => exact (h'.mono hnil).weaken fun x _ hx => Or.inl hx
  | expr hx _ ih => exact .expr hx (ih h')
  | assign hv _ ih => exact .assign hv (ih h')
  | indexAssign ha hi hv _ ih => exact .indexAssign ha hi hv (ih h')
  | ifElse hcond hthen helse _ _ _ ih => exact .ifElse hcond hthen helse (ih h')
  | whileDo hcond hbody _ _ ih => exact .whileDo hcond hbody (ih h')

theorem definite_nil : Definite A [] A := .nil fun _ _ hx => hx

theorem definite_assign {name : String} {v : Expr} (h : Known A v.names) :
    Definite A [.assign name v] fun x => A x ∨ x = name :=
  .assign h definite_nil

theorem known_use {temp : Binding} (h : A temp.name) : Known A (use temp).names := by
  intro x _ hx
  rw [use, Expr.names, List.mem_singleton] at hx
  exact hx ▸ h

theorem definite_choose {op : BinaryOp} {temp : Binding} (htemp : A temp.name)
    (h : Definite A ss A) : Definite A [choose op temp ss] A := by
  rw [choose]
  split
  · exact .ifElse (known_use htemp) definite_nil h definite_nil
  · exact .ifElse (known_use htemp) h definite_nil definite_nil

end

/-! ## Normal forms -/

section

variable {T T' : Temps} {es xs xs' : List Expr} {first moves : List Stmt} {A : String → Prop}

theorem Moves.definite (h : Moves T xs moves xs' T') (hxs : Known A (Expr.listNames xs)) :
    Definite A moves fun x => A x ∨ x ∈ Expr.listNames xs' := by
  induction h generalizing A with
  | nil =>
      apply definite_nil.weaken
      intro x _ hx
      simpa [Expr.listNames] using hx
  | keep _ _ ih =>
      simp only [Known, Expr.listNames, List.mem_append] at hxs ⊢
      apply (ih fun x htemp hx => hxs x htemp (Or.inr hx)).weaken
      rintro x htemp (hx | hx | hx)
      · exact Or.inl hx
      · exact Or.inl (hxs x htemp (Or.inl hx))
      · exact Or.inr hx
  | move _ _ _ ih =>
      simp only [Known, Expr.listNames, List.mem_append] at hxs ⊢
      apply Definite.assign fun x htemp hx => hxs x htemp (Or.inl hx)
      apply (ih fun x htemp hx => Or.inl (hxs x htemp (Or.inr hx))).weaken
      rintro x - (hx | hx | hx)
      · exact Or.inl (Or.inl hx)
      · rw [use, Expr.names, List.mem_singleton] at hx
        exact Or.inl (Or.inr hx)
      · exact Or.inr hx

/-- The statements in front of operands assign the temporaries that the operands use. -/
theorem Prepares.definite (h : Prepares T es first xs T')
    (hes : ∀ x ∈ Expr.listNames es, ¬IsTemp x) :
    Definite A first fun x => A x ∨ x ∈ Expr.listNames xs := by
  induction h generalizing A with
  | nil =>
      apply definite_nil.weaken
      intro x _ hx
      simpa [Expr.listNames] using hx
  | atom _ =>
      apply definite_nil.weaken
      intro x htemp hx
      exact hx.resolve_right fun hx => hes x hx htemp
  | node hnode _ ih =>
      simp only [Expr.listNames, hnode.names, List.append_nil] at hes ⊢
      exact ih hes
  | arrayNode hnode _ hmoves ih =>
      simp only [Expr.listNames, hnode.names, List.append_nil] at hes ⊢
      apply (ih hes).append
      apply (hmoves.definite fun x _ hx => Or.inr hx).weaken
      exact fun x _ hx => hx.imp_left Or.inl
  | logic _ _ hr ihl _ =>
      simp only [Expr.listNames, Expr.names, List.append_nil, List.mem_append] at hes ihl ⊢
      obtain rfl := hr.eq_of_nil
      apply (ihl fun x hx => hes x (Or.inl hx)).weaken
      rintro x htemp (hx | hx | hx)
      · exact Or.inl hx
      · exact Or.inr hx
      · exact absurd htemp (hes x (Or.inr hx))
  | @logicMoved _ _ _ _ _ _ _ _ _ r' _ own temp _ _ _ _ _ ihl ihr =>
      simp only [Expr.listNames, Expr.names, List.append_nil, List.mem_append] at hes ihl ihr ⊢
      -- What is assigned only in the branch does not count behind it.
      have hbranch {D : String → Prop} :
          Definite D (own ++ [.assign temp.name r']) D := by
        apply (ihr fun x hx => hes x (Or.inr hx)).append
        apply (definite_assign fun x _ hx => Or.inr hx).weaken
        exact fun x _ hx => Or.inl (Or.inl hx)
      apply (ihl fun x hx => hes x (Or.inl hx)).append
      apply Definite.assign fun x _ hx => Or.inr hx
      apply (definite_choose (Or.inr rfl) hbranch).weaken
      intro x _ hx
      rw [use, Expr.names, List.mem_singleton] at hx
      exact hx.imp_left Or.inl
  | snoc _ hx ih _ =>
      simp only [append_of_eq_flatMap Expr.listNames_eq, List.mem_append] at hes ⊢
      obtain rfl := hx.eq_of_nil
      apply (ih fun x hx => hes x (Or.inl hx)).weaken
      rintro x htemp (hx | hx | hx)
      · exact Or.inl hx
      · exact Or.inr hx
      · exact absurd htemp (hes x (Or.inr hx))
  | snocMoved _ _ _ hmoves ih ih' =>
      simp only [append_of_eq_flatMap Expr.listNames_eq, List.mem_append] at hes ⊢
      have hfirst := ih (A := A) fun x hx => hes x (Or.inl hx)
      have hmoved := hfirst.append (hmoves.definite fun x _ hx => Or.inr hx)
      apply hmoved.append
      apply (ih' fun x hx => hes x (Or.inr hx)).weaken
      rintro x - (hx | hx | hx)
      · exact Or.inl (Or.inl (Or.inl hx))
      · exact Or.inl (Or.inr hx)
      · exact Or.inr hx

theorem Prepares.definite_single {tier : Tier} {vars : Env} {e e' : Expr} {ty : Ty}
    (h : Prepares T [e] first [e'] T') (hvars : EnvOk vars) (he : HasType tier vars e ty) :
    Definite A first fun x => A x ∨ x ∈ e'.names := by
  have hdefinite := h.definite (A := A) (not_isTemp_of_mem_names hvars (.cons he .nil))
  simpa [Expr.listNames] using hdefinite

/-- A program in normal form reads temporaries only after it assigned them. -/
theorem Normalizes.definite {tier : Tier} {vars : Env} {stmts out : List Stmt}
    (h : Normalizes T stmts out T') (hvars : EnvOk vars)
    (htyped : ∀ s ∈ stmts, StmtTyped tier vars s) : Definite A out A := by
  induction h generalizing A with
  | nil => exact definite_nil
  | expr hx _ ih =>
      obtain ⟨hs, htyped'⟩ := List.forall_mem_cons.mp htyped
      cases hs with
      | expr he =>
          apply (hx.definite_single hvars he).append
          apply Definite.expr fun x _ hx => Or.inr hx
          exact (ih htyped').weaken fun x _ hx => Or.inl hx
  | assign hv _ ih =>
      obtain ⟨hs, htyped'⟩ := List.forall_mem_cons.mp htyped
      cases hs with
      | assign _ _ he =>
          apply (hv.definite_single hvars he).append
          apply Definite.assign fun x _ hx => Or.inr hx
          exact (ih htyped').weaken fun x _ hx => Or.inl (Or.inl hx)
  | indexAssign hai hmoves hv _ ih =>
      obtain ⟨hs, htyped'⟩ := List.forall_mem_cons.mp htyped
      cases hs with
      | indexAssign _ ha hi hvalue =>
          have hsource := not_isTemp_of_mem_names hvars (.cons ha (.cons hi .nil))
          have hfirst := (hai.definite (A := A) hsource).append
            (hmoves.definite fun x _ hx => Or.inr hx)
          simp only [Expr.listNames, List.append_nil, List.mem_append] at hfirst
          apply (hfirst.append (hv.definite_single hvars hvalue)).append
          apply Definite.indexAssign
          · exact fun x _ hx => Or.inl (Or.inr (Or.inl hx))
          · exact fun x _ hx => Or.inl (Or.inr (Or.inr hx))
          · exact fun x _ hx => Or.inr hx
          · exact (ih htyped').weaken fun x _ hx => Or.inl (Or.inl (Or.inl hx))
  | ifElse hc _ _ _ ihthen ihelse ih =>
      obtain ⟨hs, htyped'⟩ := List.forall_mem_cons.mp htyped
      cases hs with
      | ifElse hcond hthen helse =>
          apply (hc.definite_single hvars hcond).append
          apply Definite.ifElse (fun x _ hx => Or.inr hx) (ihthen hthen) (ihelse helse)
          exact (ih htyped').weaken fun x _ hx => Or.inl hx
  | whileDo hc _ _ ihbody ih =>
      obtain ⟨hs, htyped'⟩ := List.forall_mem_cons.mp htyped
      cases hs with
      | whileDo hcond hbody =>
          obtain rfl := hc.eq_of_nil
          apply Definite.whileDo _ (ihbody hbody) (ih htyped')
          intro x htemp hx
          obtain ⟨ty, hfind⟩ := find?_of_mem_names hcond x hx
          exact absurd htemp (not_isTemp_of_find? hvars hfind)
  | @whileMoved _ _ _ _ _ c c' first _ _ _ _ temp hc _ _ _ _ ihbody ih =>
      obtain ⟨hs, htyped'⟩ := List.forall_mem_cons.mp htyped
      cases hs with
      | whileDo hcond hbody =>
          -- The test is run in front of the loop and at the end of each round.
          have htest {D : String → Prop} :
              Definite D (first ++ [.assign temp.name c']) fun x => D x ∨ x = temp.name := by
            apply (hc.definite_single hvars hcond).append
            apply (definite_assign fun x _ hx => Or.inr hx).weaken
            exact fun x _ hx => hx.imp_left Or.inl
          apply htest.append
          apply Definite.whileDo (known_use (Or.inr rfl))
          · apply (ihbody hbody).append
            exact htest.weaken fun x _ hx => Or.inl hx
          · exact (ih htyped').weaken fun x _ hx => Or.inl hx

end

end ArrayLang.NormalForm
