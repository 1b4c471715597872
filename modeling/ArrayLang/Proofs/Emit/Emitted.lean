import ArrayLang.Emit.Stmt
import ArrayLang.Proofs.Reference.Eval
import ArrayLang.Proofs.Typing.Rules

/-!
# Success of code generation

A step of code generation for a well-typed part of a program does not fail, however many loops came
before.  The rules join a step and a property of what it makes.
-/

namespace ArrayLang.Emit

open Source Code Typing

/-- A step of code generation succeeds, and what it makes has a property. -/
def Emitted {α : Type} (step : Emission α) (Q : α → Prop) : Prop :=
  ∀ p, ∃ a p', step.run p = (.ok a, p') ∧ Q a

variable {α β : Type}

theorem Emission.run_bind (x : Emission α) (f : α → Emission β) (p : Progress) :
    Emission.run (x >>= f) p =
      match x.run p with
      | (.ok a, p') => (f a).run p'
      | (.error e, p') => (.error e, p') := by
  simp only [Emission.run, ExceptT.run_bind, StateT.run_bind]
  rcases StateT.run (ExceptT.run x) p with ⟨answer, p'⟩
  cases answer <;> rfl

namespace Emitted

theorem pure {Q : α → Prop} {a : α} (h : Q a) : Emitted (Pure.pure a) Q :=
  fun p => ⟨a, p, rfl, h⟩

theorem mono {Q R : α → Prop} {x : Emission α} (h : Emitted x Q) (hQR : ∀ a, Q a → R a) :
    Emitted x R := by
  intro p
  obtain ⟨a, p', hrun, hQ⟩ := h p
  exact ⟨a, p', hrun, hQR a hQ⟩

theorem bind {Q : α → Prop} {R : β → Prop} {x : Emission α} {f : α → Emission β}
    (hx : Emitted x Q) (hf : ∀ a, Q a → Emitted (f a) R) :
    Emitted (x >>= f) R := by
  intro p
  obtain ⟨a, p', hrun, hQ⟩ := hx p
  obtain ⟨b, p'', hrun', hR⟩ := hf a hQ p'
  refine ⟨b, p'', ?_, hR⟩
  rw [Emission.run_bind, hrun]
  exact hrun'

end Emitted

/-! ## Single steps -/

/-- The two labels of a loop differ. -/
theorem loopLabels_exit_ne_start (kind : String) (number : Nat) :
    (loopLabels kind number).exit ≠ (loopLabels kind number).start := by
  intro h
  have hlist := congrArg String.toList h
  simp only [loopLabels, toString, String.toList_append, List.append_assoc,
    List.append_cancel_left_eq, List.append_cancel_right_eq] at hlist
  exact absurd hlist (by decide)

theorem emitted_freshLabels (kind : String) :
    Emitted (freshLabels kind) fun labels => labels.exit ≠ labels.start :=
  fun _ => ⟨_, _, rfl, loopLabels_exit_ne_start kind _⟩

theorem emitted_useScratch : Emitted useScratch fun _ => True :=
  fun _ => ⟨(), _, rfl, trivial⟩

section

variable {t : Target} {env : Env} {e : Expr} {ty elem : Ty}

theorem emitted_requireTier {needed : Tier} (what : String)
    (h : t.tier.admits needed = true) :
    Emitted (requireTier t what needed) fun _ => True := by
  rw [requireTier, if_pos h]
  exact Emitted.pure trivial

theorem emitted_accepted (hvalid : e.ty.isValid = true) (hadmits : t.tier.admits e.tier = true) :
    Emitted (accept t e) fun _ => True := by
  rw [accept, hvalid]
  exact emitted_requireTier _ hadmits

theorem emitted_accept (h : HasType t.tier env e ty) : Emitted (accept t e) fun _ => True :=
  emitted_accepted h.isValid h.admits

/-- Every literal or variable with a type has code. -/
theorem emitted_operand (what : String) (hatomic : e.isAtomic = true)
    (hvalid : e.ty.isValid = true) (hloop : t.tier.admits .loop = true) :
    Emitted (atom t what e) fun code => code = atomCode e := by
  have htier : e.tier = .loop := by
    cases e <;> simp_all [Expr.isAtomic, Expr.tier]
  rw [atom, hatomic]
  refine (emitted_accepted hvalid (htier ▸ hloop)).bind ?_
  intro _ _
  exact Emitted.pure rfl

theorem emitted_atom (what : String) (h : HasType t.tier env e ty)
    (hatomic : e.isAtomic = true) :
    Emitted (atom t what e) fun code => code = atomCode e :=
  emitted_operand what hatomic h.isValid h.admits_loop

theorem emitted_representation (otherwise : Untyped) (h : IsValue ty) :
    Emitted (representation ty otherwise) fun vt => vt = Reference.cellType ty := by
  cases h <;> exact Emitted.pure rfl

theorem emitted_elemType (h : elem.isValid = true) :
    Emitted (elemType (.array elem)) fun ty => elem = ty := by
  have helem : Layout.elemType? (.array elem) = some elem := by
    simp [Layout.elemType?, Ty.elem?, h]
  rw [elemType, helem]
  exact Emitted.pure rfl

end

end ArrayLang.Emit
