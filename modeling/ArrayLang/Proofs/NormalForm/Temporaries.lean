import ArrayLang.Proofs.NormalForm.Output

/-!
# The temporaries of a normal form

No two temporaries that are made for a program have the same name, and each of them has a type of
values.  Both follow from what one temporary adds to those that were made before it.
-/

namespace ArrayLang.NormalForm

open Source Typing List

variable {tier : Tier} {vars : Env} {T T' : Temps} {es xs xs' : List Expr} {tys : List Ty}
  {first moves stmts out : List Stmt} {P : Temps → Prop}

/-! ## Types of operands -/

theorem Moves.map_ty (h : Moves T xs moves xs' T') : xs'.map Expr.ty = xs.map Expr.ty := by
  induction h with
  | nil => rfl
  | keep _ _ ih => rw [map_cons, map_cons, ih]
  | move _ hfresh _ ih =>
      rw [map_cons, map_cons, ih]
      cases hfresh
      rfl

theorem SameNode.ty_eq {array : Bool} {e e' : Expr} (h : SameNode array e es e' xs) :
    e'.ty = e.ty := by
  cases h <;> rfl

/-- Prepared operands have the types of the operands of the source. -/
theorem Prepares.map_ty (h : Prepares T es first xs T')
    (htyped : Forall₂ (HasType tier vars) es tys) : xs.map Expr.ty = es.map Expr.ty := by
  induction h generalizing tys with
  | nil | atom => rfl
  | node hnode | arrayNode hnode => rw [map_singleton, map_singleton, hnode.ty_eq]
  | logic => rfl
  | logicMoved hop _ _ _ hfresh =>
      cases htyped with
      | cons he =>
          obtain ⟨rfl, -, -, -⟩ := he.logic_inv hop
          cases hfresh
          rfl
  | snoc _ _ ih ih' =>
      obtain ⟨tys, ty, rfl, hes, he⟩ := exists_of_forall₂_concat htyped
      rw [map_append, map_append, ih hes, ih' (.cons he .nil)]
  | snocMoved _ _ _ hmoves ih ih' =>
      obtain ⟨tys, ty, rfl, hes, he⟩ := exists_of_forall₂_concat htyped
      rw [map_append, map_append, hmoves.map_ty, ih hes, ih' (.cons he .nil)]

/-! ## What every temporary keeps -/

section

variable (hP : ∀ {T T' : Temps} {ty : Ty} {temp : Binding},
  Fresh T ty temp T' → IsValue ty → P T → P T')
include hP

theorem Moves.keeps (h : Moves T xs moves xs' T') (hvalue : ∀ ty ∈ xs.map Expr.ty, IsValue ty)
    (hT : P T) : P T' := by
  induction h with
  | nil => exact hT
  | keep _ _ ih => exact ih (forall_mem_cons.mp hvalue).2 hT
  | move _ hfresh _ ih =>
      obtain ⟨hx, hxs⟩ := forall_mem_cons.mp hvalue
      exact ih hxs (hP hfresh hx hT)

theorem Prepares.keeps (h : Prepares T es first xs T')
    (htyped : Forall₂ (HasType tier vars) es tys) (hvalue : ∀ ty ∈ tys.dropLast, IsValue ty)
    (hT : P T) : P T' := by
  induction h generalizing tys with
  | nil | atom => exact hT
  | node hnode _ ih =>
      cases htyped with
      | cons he =>
          obtain ⟨tys, hes, hvalues, -⟩ := hnode.typed he
          exact ih hes (fun ty hty => hvalues ty (dropLast_subset _ hty)) hT
  | arrayNode hnode hprep hmoves ih =>
      cases htyped with
      | cons he =>
          obtain ⟨tys, hes, hvalues, -⟩ := hnode.typed he
          apply hmoves.keeps hP
          · rw [hprep.map_ty hes, map_ty_eq hes]
            exact hvalues
          · exact ih hes (fun ty hty => hvalues ty (dropLast_subset _ hty)) hT
  | logic hop _ _ ihl ihr =>
      cases htyped with
      | cons he =>
          obtain ⟨-, -, hleft, hright⟩ := he.logic_inv hop
          exact ihr (.cons hright .nil) (by simp) (ihl (.cons hleft .nil) (by simp) hT)
  | logicMoved hop _ _ _ hfresh ihl ihr =>
      cases htyped with
      | cons he =>
          obtain ⟨-, -, hleft, hright⟩ := he.logic_inv hop
          apply hP hfresh .bool
          exact ihr (.cons hright .nil) (by simp) (ihl (.cons hleft .nil) (by simp) hT)
  | snoc _ _ ih ih' =>
      obtain ⟨tys, ty, rfl, hes, he⟩ := exists_of_forall₂_concat htyped
      rw [dropLast_concat] at hvalue
      apply ih' (.cons he .nil) (by simp)
      exact ih hes (fun ty hty => hvalue ty (dropLast_subset _ hty)) hT
  | snocMoved hprep _ _ hmoves ih ih' =>
      obtain ⟨tys, ty, rfl, hes, he⟩ := exists_of_forall₂_concat htyped
      rw [dropLast_concat] at hvalue
      apply hmoves.keeps hP
      · rw [hprep.map_ty hes, map_ty_eq hes]
        exact hvalue
      · apply ih' (.cons he .nil) (by simp)
        exact ih hes (fun ty hty => hvalue ty (dropLast_subset _ hty)) hT

/-- What holds before a program is brought to normal form, and is kept by every temporary, holds
afterwards. -/
theorem Normalizes.keeps (h : Normalizes T stmts out T')
    (htyped : ∀ s ∈ stmts, StmtTyped tier vars s) (hT : P T) : P T' := by
  have hsingle {T T' : Temps} {e x : Expr} {ty : Ty} {first : List Stmt}
      (h : Prepares T [e] first [x] T') (he : HasType tier vars e ty) (hT : P T) : P T' :=
    h.keeps hP (.cons he .nil) (by simp) hT
  induction h with
  | nil => exact hT
  | expr hx _ ih =>
      obtain ⟨hs, htyped'⟩ := forall_mem_cons.mp htyped
      cases hs with
      | expr he => exact ih htyped' (hsingle hx he hT)
  | assign hv _ ih =>
      obtain ⟨hs, htyped'⟩ := forall_mem_cons.mp htyped
      cases hs with
      | assign _ _ he => exact ih htyped' (hsingle hv he hT)
  | indexAssign hai hmoves hv _ ih =>
      obtain ⟨hs, htyped'⟩ := forall_mem_cons.mp htyped
      cases hs with
      | @indexAssign _ _ _ elem _ ha hi he =>
          have hes := forall₂_pair.mpr ⟨ha, hi⟩
          have hvalues : ∀ ty ∈ [Ty.array elem, .int], IsValue ty := by
            simpa using ⟨.array ha.elem_isValue, .int⟩
          apply ih htyped'
          apply hsingle hv he
          apply hmoves.keeps hP
          · rw [hai.map_ty hes, map_ty_eq hes]
            exact hvalues
          · exact hai.keeps hP hes (fun ty hty => hvalues ty (dropLast_subset _ hty)) hT
  | ifElse hc _ _ _ ihthen ihelse ih =>
      obtain ⟨hs, htyped'⟩ := forall_mem_cons.mp htyped
      cases hs with
      | ifElse hcond hthen helse =>
          exact ih htyped' (ihelse helse (ihthen hthen (hsingle hc hcond hT)))
  | whileDo hc _ _ ihbody ih =>
      obtain ⟨hs, htyped'⟩ := forall_mem_cons.mp htyped
      cases hs with
      | whileDo hcond hbody => exact ih htyped' (ihbody hbody (hsingle hc hcond hT))
  | whileMoved hc _ _ hfresh _ ihbody ih =>
      obtain ⟨hs, htyped'⟩ := forall_mem_cons.mp htyped
      cases hs with
      | whileDo hcond hbody =>
          exact ih htyped' (hP hfresh .bool (ihbody hbody (hsingle hc hcond hT)))

end

/-! ## Names and types -/

/-- Temporaries have types of values and different names that no program may assign to. -/
structure TempsOk (temps : List Binding) : Prop where
  value : ∀ b ∈ temps, IsValue b.ty
  name : ∀ b ∈ temps, IsTemp b.name
  distinct : (temps.map Binding.name).Nodup

/-- A new temporary has a number that no earlier one has. -/
theorem Fresh.nodup {ty : Ty} {temp : Binding} (h : Fresh T ty temp T') (hT : T.Ordered)
    (hdistinct : (T.made.map Binding.name).Nodup) : (T'.made.map Binding.name).Nodup := by
  cases h with
  | @intro n hle =>
      apply nodup_names_concat hdistinct
      intro hmem
      obtain ⟨b, hb, hname⟩ := mem_map.mp hmem
      obtain ⟨m, hm, hname'⟩ := hT b hb
      rw [← tempName_inj (hname.symm.trans hname')] at hm
      exact absurd hle (Nat.not_le_of_lt hm)

theorem Fresh.valued {ty : Ty} {temp : Binding} (h : Fresh T ty temp T') (hty : IsValue ty)
    (hvalue : ∀ b ∈ T.made, IsValue b.ty) : ∀ b ∈ T'.made, IsValue b.ty := by
  cases h with
  | intro => exact forall_mem_append.mpr ⟨hvalue, forall_mem_singleton.mpr hty⟩

/-- The temporaries of a well-typed program are in order. -/
theorem Normalizes.tempsOk (h : Normalizes {} stmts out T')
    (htyped : ∀ s ∈ stmts, StmtTyped tier vars s) : TempsOk T'.made := by
  have hstep {T T' : Temps} {ty : Ty} {temp : Binding} (hfresh : Fresh T ty temp T')
      (hty : IsValue ty)
      (hT : T.Ordered ∧ (T.made.map Binding.name).Nodup ∧ ∀ b ∈ T.made, IsValue b.ty) :
      T'.Ordered ∧ (T'.made.map Binding.name).Nodup ∧ ∀ b ∈ T'.made, IsValue b.ty :=
    ⟨hfresh.ordered hT.1, hfresh.nodup hT.1 hT.2.1, hfresh.valued hty hT.2.2⟩
  obtain ⟨hordered, hdistinct, hvalue⟩ :=
    h.keeps hstep htyped ⟨Temps.ordered_empty, nodup_nil, by simp⟩
  refine ⟨hvalue, fun b hb => ?_, hdistinct⟩
  obtain ⟨n, -, hname⟩ := hordered b hb
  exact ⟨n, hname⟩

end ArrayLang.NormalForm
