import ArrayLang.Proofs.Reference.Fuel
import ArrayLang.Proofs.Reference.Leads

/-!
# Boundaries of statements

A run passes a boundary of statements before a statement starts and when a list of statements ends,
also in the bodies of conditionals and loops.  The history at a boundary is a part of the history at
the end of the run.
-/

namespace ArrayLang.Reference

open Source Machine Emit

/-- The worlds in which the condition of a loop is evaluated, from the first such world. -/
inductive Iterates (t : Target) (cond : Expr) (body : List Stmt) : World → World → Prop
  | refl (w : World) : Iterates t cond body w w
  | step {w w' w'' w''' : World} :
      w.fuel ≠ 0 → holds t cond { w with fuel := w.fuel - 1 } = .ok true w' →
      runStmts t body w' = .ok () w'' → Iterates t cond body w'' w''' →
      Iterates t cond body w w'''

/-- One more iteration. -/
theorem Iterates.tail {t : Target} {cond : Expr} {body : List Stmt} {w w₁ w₂ w₃ : World}
    (h : Iterates t cond body w w₁) (hfuel : w₁.fuel ≠ 0)
    (hcond : holds t cond { w₁ with fuel := w₁.fuel - 1 } = .ok true w₂)
    (hbody : runStmts t body w₂ = .ok () w₃) : Iterates t cond body w w₃ := by
  induction h with
  | refl => exact .step hfuel hcond hbody (.refl _)
  | step hfuel' hcond' hbody' _ ih => exact .step hfuel' hcond' hbody' (ih hfuel hcond)

/-- Statements that are run from a world pass a boundary in another world.  Of the list in which the
boundary is, the statements `left` are still to be run. -/
inductive Passes (t : Target) : List Stmt → World → (left : List Stmt) → World → Prop
  | here (stmts : List Stmt) (w : World) : Passes t stmts w stmts w
  | after {s : Stmt} {rest left : List Stmt} {w w' w'' : World} :
      runStmt t s w = .ok () w' → Passes t rest w' left w'' → Passes t (s :: rest) w left w''
  | inThen {cond : Expr} {thenBody elseBody rest left : List Stmt} {w w' w'' : World} :
      holds t cond w = .ok true w' → Passes t thenBody w' left w'' →
      Passes t (.ifElse cond thenBody elseBody :: rest) w left w''
  | inElse {cond : Expr} {thenBody elseBody rest left : List Stmt} {w w' w'' : World} :
      holds t cond w = .ok false w' → Passes t elseBody w' left w'' →
      Passes t (.ifElse cond thenBody elseBody :: rest) w left w''
  | inLoop {cond : Expr} {body rest left : List Stmt} {w w' w'' w''' : World} :
      Iterates t cond body w w' → w'.fuel ≠ 0 →
      holds t cond { w' with fuel := w'.fuel - 1 } = .ok true w'' →
      Passes t body w'' left w''' → Passes t (.whileDo cond body :: rest) w left w'''

/-- A boundary is passed during the first statement or after it. -/
theorem Passes.cons {t : Target} {s : Stmt} {rest left : List Stmt} {w w' : World}
    (h : Passes t (s :: rest) w left w') :
    (∃ left', Passes t [s] w left' w') ∨
      ∃ w₁, runStmt t s w = .ok () w₁ ∧ Passes t rest w₁ left w' := by
  cases h with
  | here => exact Or.inl ⟨_, .here _ _⟩
  | after hs hrest => exact Or.inr ⟨_, hs, hrest⟩
  | inThen hcond hbody => exact Or.inl ⟨_, .inThen hcond hbody⟩
  | inElse hcond hbody => exact Or.inl ⟨_, .inElse hcond hbody⟩
  | inLoop hiter hfuel hcond hbody => exact Or.inl ⟨_, .inLoop hiter hfuel hcond hbody⟩

/-- The end of a run is a boundary. -/
theorem passes_end {t : Target} {stmts : List Stmt} {w w' : World}
    (h : runStmts t stmts w = .ok () w') : Passes t stmts w [] w' := by
  induction stmts generalizing w with
  | nil =>
      obtain ⟨-, rfl⟩ := EStateM.Result.ok.inj h
      exact .here _ _
  | cons s rest ih =>
      rw [runStmts] at h
      obtain ⟨_, w₁, hs, hrest⟩ := exists_of_run_bind h
      exact .after hs (ih hrest)

/-- What holds of all statements in a list holds of those that are left. -/
theorem Passes.every {t : Target} {p : Stmt → Bool} {stmts left : List Stmt} {w w' : World}
    (h : Passes t stmts w left w') (hstmts : Stmt.listEvery p stmts = true) :
    Stmt.listEvery p left = true := by
  induction h with
  | here => exact hstmts
  | after _ _ ih | inThen _ _ ih | inElse _ _ ih | inLoop _ _ _ _ ih =>
      simp only [Stmt.listEvery, Stmt.every, Bool.and_eq_true] at hstmts
      exact ih (by simp [hstmts])

/-! ## Runs up to boundaries -/

section

variable {α : Type} {t : Target} {w w' : World}

theorem history_grows_of_ok {c : Eval α} {a : α} [Runs True True c] (h : c w = .ok a w') :
    w.history <+: w'.history :=
  (steps_of_ok h).history_grows

theorem Iterates.steps {cond : Expr} {body : List Stmt} (h : Iterates t cond body w w') :
    Steps True True w w' := by
  induction h with
  | refl => exact .refl
  | @step w _ _ _ _ hcond hbody _ ih =>
      exact .head (.tick w) ((steps_of_ok hcond).trans ((steps_of_ok hbody).trans ih))

theorem Iterates.history_grows {cond : Expr} {body : List Stmt} (h : Iterates t cond body w w') :
    w.history <+: w'.history :=
  h.steps.history_grows

/-- A loop takes fuel, evaluates its condition, and goes on if it holds. -/
theorem run_loop {cond : Eval Bool} {body : Eval Unit} (hfuel : w.fuel ≠ 0) :
    loop cond body w.fuel w =
      (do if ← cond then (do body; loop cond body (w.fuel - 1)) else pure ())
        { w with fuel := w.fuel - 1 } := by
  have htick : tick w = .ok () { w with fuel := w.fuel - 1 } := by rw [run_tick, if_neg hfuel]
  have hfuel' : w.fuel = w.fuel - 1 + 1 := (Nat.succ_pred_eq_of_ne_zero hfuel).symm
  rw [congrArg (loop cond body · w) hfuel', loop_add_one, run_bind_ok w htick]

/-- The rest of a loop is a loop from the world in which its condition is evaluated. -/
theorem Iterates.loop_eq {cond : Expr} {body : List Stmt} (h : Iterates t cond body w w') :
    loop (holds t cond) (runStmts t body) w.fuel w =
      loop (holds t cond) (runStmts t body) w'.fuel w' := by
  induction h with
  | refl => rfl
  | step hfuel hcond hbody _ ih =>
      have hle := (fuel_le_of_ok hbody).trans (fuel_le_of_ok hcond)
      rw [run_loop hfuel, run_bind_ok _ hcond, if_pos rfl, run_bind_ok _ hbody, loop_bound hle, ih]

/-- A loop leads to each evaluation of its condition. -/
theorem Iterates.leads {cond : Expr} {body : List Stmt} (h : Iterates t cond body w w')
    (hfuel : w'.fuel ≠ 0) :
    Leads (runStmt t (.whileDo cond body)) w
      (do
        if ← holds t cond then (do
          runStmts t body
          loop (holds t cond) (runStmts t body) (w'.fuel - 1))
        else pure ())
      { w' with fuel := w'.fuel - 1 } := by
  refine ⟨.tail h.steps (.tick w'), pure, inferInstance, ?_⟩
  rw [bind_pure, ← run_loop hfuel, ← h.loop_eq]
  rfl

/-- From a boundary on, the statements that are left are run, and then what comes after them. -/
theorem Passes.leads {stmts left : List Stmt} (h : Passes t stmts w left w') :
    Leads (runStmts t stmts) w (runStmts t left) w' := by
  induction h with
  | here stmts w => exact .refl _ w
  | after hs _ ih =>
      rw [runStmts]
      exact (Leads.of_ok hs _).trans ih
  | inThen hcond _ ih | inElse hcond _ ih =>
      rw [runStmts, runStmt]
      exact ((Leads.of_ok hcond _).trans ih).bind inferInstance
  | inLoop hiter hfuel hcond _ ih =>
      rw [runStmts]
      refine ((hiter.leads hfuel).trans ?_).bind inferInstance
      exact (Leads.of_ok hcond _).trans (ih.bind inferInstance)

theorem Passes.history_grows {stmts left : List Stmt} (h : Passes t stmts w left w') :
    w.history <+: w'.history :=
  h.leads.steps.history_grows

/-- What happens up to a boundary is the start of what happens in all. -/
theorem Passes.history_le_end {stmts left : List Stmt} (h : Passes t stmts w left w') :
    w'.history <+: (endWorld (runStmts t stmts w)).history :=
  (Reference.history_grows (runStmts t left) w').trans h.leads.history_le_end

theorem Passes.memory_size {stmts left : List Stmt} (h : Passes t stmts w left w') :
    w'.memory.size = w.memory.size :=
  h.leads.steps.memory_size

/-- If the statements that are left halt, so does the run. -/
theorem Passes.error {stmts left : List Stmt} {why : Halt} {w'' : World}
    (h : Passes t stmts w left w') (hleft : runStmts t left w' = .error why w'') :
    runStmts t stmts w = .error why w'' :=
  h.leads.error hleft

end

end ArrayLang.Reference
