import ArrayLang.Proofs.Reference.Steps

/-!
# Computations that lead to others

A computation leads to another one if it does some small changes, then the other computation, and
then goes on.  So if the other computation halts the first one has halted, and what the other one
does the first one has done.
-/

namespace ArrayLang.Reference

open Source Machine Emit

/-- A computation from a world goes on with another one from another world. -/
structure Leads {α β : Type} (x : Eval α) (w : World) (y : Eval β) (w' : World) : Prop where
  steps : Steps True True w w'
  rest : ∃ f : β → Eval α, (∀ b, Runs True True (f b)) ∧ x w = (y >>= f) w'

section

variable {α β γ : Type} {x : Eval α} {y : Eval β} {z : Eval γ} {w w' w'' : World}

theorem steps_of_ok {a : α} [h : Runs True True x] (hx : x w = .ok a w') :
    Steps True True w w' := by
  have hends := h.ends w
  rw [hx] at hends
  cases hends with
  | ok hsteps => exact hsteps

namespace Leads

theorem refl (x : Eval α) (w : World) : Leads x w x w :=
  ⟨.refl, pure, inferInstance, by rw [bind_pure]⟩

theorem trans (h : Leads x w y w') (h' : Leads y w' z w'') : Leads x w z w'' := by
  obtain ⟨f, hf, hx⟩ := h.rest
  obtain ⟨g, hg, hy⟩ := h'.rest
  refine ⟨h.steps.trans h'.steps, fun c => g c >>= f, inferInstance, ?_⟩
  rw [hx, ← bind_assoc, run_bind, hy, ← run_bind]

/-- What a computation leads to, it leads to when something comes after it. -/
theorem bind (h : Leads x w y w') {f : α → Eval γ} (hf : ∀ a, Runs True True (f a)) :
    Leads (x >>= f) w y w' := by
  obtain ⟨g, hg, hx⟩ := h.rest
  refine ⟨h.steps, fun b => g b >>= f, inferInstance, ?_⟩
  rw [← bind_assoc, run_bind, hx, ← run_bind]

/-- A computation that ends leads to what comes after it. -/
theorem of_ok {a : α} [Runs True True x] (hx : x w = .ok a w') (f : α → Eval γ) :
    Leads (x >>= f) w (f a) w' :=
  ⟨steps_of_ok hx, pure, inferInstance, by rw [bind_pure, run_bind_ok w hx]⟩

theorem error {why : Halt} (h : Leads x w y w') (hy : y w' = .error why w'') :
    x w = .error why w'' := by
  obtain ⟨f, -, hx⟩ := h.rest
  rw [hx, run_bind_error w' hy]

theorem history_le_end (h : Leads x w y w') :
    (endWorld (y w')).history <+: (endWorld (x w)).history := by
  obtain ⟨f, hf, hx⟩ := h.rest
  rw [hx]
  exact history_grows_bind y w'

end Leads

end

/-- Operands lead to each of them when those before it have values. -/
theorem leads_operand {t : Target} {w w₁ : World} {x : Expr} {before after : List Expr}
    {values : List UInt64} (h : evalExprs t before w = .ok values w₁) :
    Leads (evalExprs t (before ++ x :: after)) w (evalExpr t x) w₁ := by
  induction before generalizing w values with
  | nil =>
      obtain ⟨-, rfl⟩ := EStateM.Result.ok.inj h
      rw [List.nil_append, evalExprs]
      exact (Leads.refl _ _).bind inferInstance
  | cons e rest ih =>
      rw [evalExprs] at h
      obtain ⟨v, w₂, he, h⟩ := exists_of_run_bind h
      obtain ⟨_, _, hrest, h⟩ := exists_of_run_bind h
      obtain ⟨-, rfl⟩ := EStateM.Result.ok.inj h
      rw [List.cons_append, evalExprs]
      exact (Leads.of_ok he _).trans ((ih hrest).bind inferInstance)

end ArrayLang.Reference
