import ArrayLang.Proofs.Reference.Eval
import ArrayLang.Proofs.Typing.Rules
import Mathlib.Logic.Relation

/-!
# Steps of runs

Whatever a run does is a row of small changes of the world, at the end of which there may be a
report.  Evaluating an expression does not assign to variables.  What all the changes keep, every
run keeps.
-/

namespace ArrayLang.Reference

open Source Code Machine Emit Typing Relation

/-- A small change of the world.  `prints` and `assigns` say whether it may print a line or assign
to a variable.  Memory changes where an access was recorded, and the frontier moves behind an array
that was made. -/
inductive Step (prints assigns : Prop) : World → World → Prop
  | note (w : World) (e : Event) : Step prints assigns w (w.note e)
  | store (w : World) (ty : ValType) (address : UInt32) (bytes : List UInt8) :
      .store ty address ∈ w.accesses →
      Step prints assigns w { w with memory := w.memory.write address.toNat bytes }
  | advance (w : World) (x : Extent) :
      x ∈ w.arrays →
      Step prints assigns w { w with frontier := pastArray x.address x.length x.elem }
  | tick (w : World) : Step prints assigns w { w with fuel := w.fuel - 1 }
  | input (w : World) (input : Host.Input) :
      Step prints assigns w { w with console := { w.console with input } }
  | print (w : World) (line : String) :
      prints → Step prints assigns w { w with console := w.console.print line }
  | assign (w : World) (name : String) (value : UInt64) :
      assigns → Step prints assigns w { w with vars := Function.update w.vars name value }

/-- Small changes one after the other. -/
abbrev Steps (prints assigns : Prop) : World → World → Prop :=
  ReflTransGen (Step prints assigns)

/-- How a run from a world may end. -/
inductive Ends (prints assigns : Prop) (w : World) {α : Type} :
    EStateM.Result Halt World α → Prop
  | ok {a : α} {w' : World} : Steps prints assigns w w' → Ends prints assigns w (.ok a w')
  | error {why : Halt} {w' : World} :
      Steps prints assigns w w' → why ≠ .trap .unreachable → Ends prints assigns w (.error why w')
  | reported {w' : World} (message : List UInt8) :
      Steps prints assigns w w' →
      Ends prints assigns w
        (.error (.trap .unreachable) { w' with console := w'.console.report message })

/-- A computation does small changes only. -/
class Runs (prints assigns : Prop) {α : Type} (c : Eval α) : Prop where
  ends : ∀ w, Ends prints assigns w (c w)

section

variable {α β : Type} {prints assigns : Prop}

/-! ## What small changes keep -/

theorem Step.history_grows {w w' : World} (h : Step prints assigns w w') :
    w.history <+: w'.history := by
  cases h with
  | note => exact List.prefix_append _ _
  | _ => exact List.prefix_refl _

theorem Step.fuel_le {w w' : World} (h : Step prints assigns w w') : w'.fuel ≤ w.fuel := by
  cases h with
  | tick => exact Nat.sub_le _ _
  | _ => exact Nat.le_refl _

theorem Step.stderr_eq {w w' : World} (h : Step prints assigns w w') :
    w'.console.stderr = w.console.stderr := by
  cases h <;> rfl

theorem Step.stdout_eq {w w' : World} (h : Step False assigns w w') :
    w'.console.stdout = w.console.stdout := by
  cases h with
  | print _ hprints => exact hprints.elim
  | _ => rfl

theorem Step.vars_eq {w w' : World} (h : Step prints False w w') : w'.vars = w.vars := by
  cases h with
  | assign _ _ hassigns => exact hassigns.elim
  | _ => rfl

theorem Step.memory_size {w w' : World} (h : Step prints assigns w w') :
    w'.memory.size = w.memory.size := by
  cases h with
  | store => exact Memory.size_write _ _ _
  | _ => rfl

/-- A view of worlds that no small change alters is the same after all of them. -/
theorem Steps.eq_of_step {γ : Type} {f : World → γ} {w w' : World}
    (hstep : ∀ w w', Step prints assigns w w' → f w' = f w) (h : Steps prints assigns w w') :
    f w' = f w := by
  induction h with
  | refl => rfl
  | tail _ hlast ih => exact (hstep _ _ hlast).trans ih

theorem Steps.vars_eq {w w' : World} (h : Steps prints False w w') : w'.vars = w.vars :=
  h.eq_of_step (f := World.vars) fun _ _ hstep => hstep.vars_eq

theorem Steps.stdout_eq {w w' : World} (h : Steps False assigns w w') :
    w'.console.stdout = w.console.stdout :=
  h.eq_of_step (f := fun w => w.console.stdout) fun _ _ hstep => hstep.stdout_eq

theorem Steps.stderr_eq {w w' : World} (h : Steps prints assigns w w') :
    w'.console.stderr = w.console.stderr :=
  h.eq_of_step (f := fun w => w.console.stderr) fun _ _ hstep => hstep.stderr_eq

theorem Steps.memory_size {w w' : World} (h : Steps prints assigns w w') :
    w'.memory.size = w.memory.size :=
  h.eq_of_step (f := fun w => w.memory.size) fun _ _ hstep => hstep.memory_size

theorem Steps.history_grows {w w' : World} (h : Steps prints assigns w w') :
    w.history <+: w'.history := by
  induction h with
  | refl => exact List.prefix_refl _
  | tail _ hlast ih => exact ih.trans hlast.history_grows

theorem Steps.fuel_le {w w' : World} (h : Steps prints assigns w w') : w'.fuel ≤ w.fuel := by
  induction h with
  | refl => exact Nat.le_refl _
  | tail _ hlast ih => exact Nat.le_trans hlast.fuel_le ih

/-- The frontier stays where it is until an array is made. -/
theorem Steps.frontier_eq {w w' : World} (h : Steps prints assigns w w') (hnone : w'.arrays = []) :
    w'.frontier = w.frontier := by
  induction h with
  | refl => rfl
  | @tail w₁ w' _ hlast ih =>
      have hnone₁ : w₁.arrays = [] :=
        List.prefix_nil.mp (hnone ▸ hlast.history_grows.filterMap Event.made?)
      cases hlast with
      | advance _ hmade => exact absurd hmade (hnone₁ ▸ List.not_mem_nil)
      | _ => exact ih hnone₁

/-- Memory stays as it is until something is stored. -/
theorem Steps.memory_eq {w w' : World} (h : Steps prints assigns w w')
    (hnone : ∀ ty address, .store ty address ∉ w'.accesses) : w'.memory = w.memory := by
  induction h with
  | refl => rfl
  | @tail w₁ w' _ hlast ih =>
      have hnone₁ (ty : ValType) (address : UInt32) : .store ty address ∉ w₁.accesses :=
        fun hmem => hnone ty address ((hlast.history_grows.filterMap Event.access?).mem hmem)
      cases hlast with
      | store ty address _ haccess => exact absurd haccess (hnone₁ ty address)
      | _ => exact ih hnone₁

/-! ## Runs -/

/-- What comes after some changes can come after more of them. -/
theorem Ends.after {w w' : World} {r : EStateM.Result Halt World α}
    (hsteps : Steps prints assigns w w') (h : Ends prints assigns w' r) :
    Ends prints assigns w r := by
  cases h with
  | ok hmore => exact .ok (hsteps.trans hmore)
  | error hmore hwhy => exact .error (hsteps.trans hmore) hwhy
  | reported message hmore => exact .reported message (hsteps.trans hmore)

instance (a : α) : Runs prints assigns (pure a : Eval α) := ⟨fun _ => .ok .refl⟩

instance : Runs prints assigns (throw .canceled : Eval α) := ⟨fun _ => .error .refl (by simp)⟩

instance : Runs prints assigns (get : Eval World) := ⟨fun _ => .ok .refl⟩

instance (x : Eval α) (f : α → Eval β) [hx : Runs prints assigns x]
    [hf : ∀ a, Runs prints assigns (f a)] : Runs prints assigns (x >>= f) := by
  constructor
  intro w
  have h := hx.ends w
  rw [run_bind]
  generalize x w = r at h ⊢
  cases h with
  | ok hsteps => exact ((hf _).ends _).after hsteps
  | error hsteps hwhy => exact .error hsteps hwhy
  | reported message hsteps => exact .reported message hsteps

instance (p : Prop) [Decidable p] (x y : Eval α) [hx : Runs prints assigns x]
    [hy : Runs prints assigns y] : Runs prints assigns (if p then x else y) := by
  split
  · exact hx
  · exact hy

instance (e : Event) : Runs prints assigns (note e) := ⟨fun w => .ok (.single (.note w e))⟩

instance (name : String) : Runs prints assigns (readVar name) :=
  ⟨fun w => .ok (.single (.note w _))⟩

instance (name : String) (value : UInt64) : Runs prints True (assignVar name value) :=
  ⟨fun w => .ok (.tail (.single (.note w _)) (.assign _ name value trivial))⟩

instance : Runs prints assigns tick := by
  constructor
  intro w
  rw [run_tick]
  split
  · exact .error .refl (by simp)
  · exact .ok (.single (.tick w))

instance (purpose : Purpose) (array : UInt32) (ty : ValType) (address : UInt32) :
    Runs prints assigns (load purpose array ty address) := by
  constructor
  intro w
  rw [run_load]
  split
  · exact .ok (.single (.note w _))
  · exact .error (.single (.note w _)) (by simp)

instance (purpose : Purpose) (array : UInt32) (ty : ValType) (address : UInt32) (value : UInt64) :
    Runs prints assigns (store purpose array ty address value) := by
  constructor
  intro w
  rw [run_store]
  split
  · refine .ok (.tail (.single (.note w _)) (.store _ ty address _ ?_))
    simp [World.accesses, Event.access?]
  · exact .error (.single (.note w _)) (by simp)

instance (msg : Message) : Runs prints assigns (report msg) := by
  constructor
  intro w
  rw [run_report]
  by_cases h : w.memory.size < msg.offset.toUInt32.toNat + msg.length.toUInt32.toNat
  · simp only [h, if_true]
    exact .error .refl (by simp)
  · simp only [h, if_false]
    exact .reported _ .refl

instance (ok : Bool) (msg : Message) : Runs prints assigns (require ok msg) := by
  rw [require]
  infer_instance

instance (ty : Ty) (value : UInt64) : Runs True assigns (print ty value) :=
  ⟨fun w => .ok (.single (.print w _ trivial))⟩

instance : Runs prints assigns input := by
  constructor
  intro w
  cases h : w.console.input.readInt with
  | mk answer rest =>
      cases answer with
      | ok value =>
          rw [run_input_ok w h]
          exact .ok (.single (.input w rest))
      | error e =>
          rw [run_input_error w h]
          exact .error (.single (.input w rest)) (by simp)

/-! ## Arrays -/

variable {t : Target}

instance (x : Extent) (c : Eval α) [hc : Runs prints assigns c] :
    Runs prints assigns (do
      note (.made x)
      modify fun w => { w with frontier := pastArray x.address x.length x.elem }
      c) := by
  constructor
  intro w
  have hmade : x ∈ (w.note (.made x)).arrays := by simp [World.arrays, Event.made?]
  exact (hc.ends _).after (.tail (.single (.note w _)) (.advance _ x hmade))

instance (length : UInt64) (elem : Ty) : Runs prints assigns (allocate t length elem) := by
  rw [allocate]
  infer_instance

instance (base : UInt32) (elem : Ty) (position : Nat) (values : List UInt64) :
    Runs prints assigns (storeElems base elem position values) := by
  induction values generalizing position with
  | nil =>
      rw [storeElems]
      infer_instance
  | cons v rest ih =>
      rw [storeElems]
      infer_instance

instance (elem : Ty) (values : List UInt64) : Runs prints assigns (makeList t elem values) := by
  rw [makeList]
  infer_instance

instance (base : UInt32) (elem : Ty) (value : UInt64) (bound : Nat) (cursor : UInt32) :
    Runs prints assigns (fillFrom base elem value bound cursor) := by
  induction bound generalizing cursor with
  | zero =>
      rw [fillFrom]
      infer_instance
  | succ bound ih =>
      rw [fillFrom]
      infer_instance

instance (base : UInt32) (elem : Ty) (value : UInt64) (cursor : UInt32) :
    Runs prints assigns (fillArray base elem value cursor) := by
  rw [fillArray]
  infer_instance

instance (elem : Ty) (length value : UInt64) :
    Runs prints assigns (makeFill t elem length value) := by
  rw [makeFill]
  infer_instance

instance (purpose : Purpose) (array : UInt64) : Runs prints assigns (lengthAt purpose array) := by
  rw [lengthAt]
  infer_instance

instance (purpose : Purpose) (elem : Ty) (array index : UInt64) :
    Runs prints assigns (locate t purpose elem array index) := by
  unfold locate checkIndex
  infer_instance

instance (elem : Ty) (array index : UInt64) :
    Runs prints assigns (readElem t elem array index) := by
  rw [readElem]
  infer_instance

/-! ## Expressions and statements -/

instance (name : String) (args : List Expr) (values : List UInt64) :
    Runs True assigns (callValue name args values) := by
  unfold callValue
  split <;> infer_instance

theorem runs_evalExprs {es : List Expr} (h : ∀ e ∈ es, Runs prints assigns (evalExpr t e)) :
    Runs prints assigns (evalExprs t es) := by
  induction es with
  | nil =>
      rw [evalExprs]
      infer_instance
  | cons e rest ih =>
      obtain ⟨he, hrest⟩ := List.forall_mem_cons.mp h
      have := ih hrest
      rw [evalExprs]
      infer_instance

theorem runs_binary {ty : Ty} {op : BinaryOp} {l r : Expr}
    (hl : Runs prints assigns (evalExpr t l)) (hr : Runs prints assigns (evalExpr t r)) :
    Runs prints assigns (evalExpr t (.binary ty op l r)) := by
  by_cases hand : op = .and
  · rw [hand, evalExpr]
    infer_instance
  · by_cases hor : op = .or
    · rw [hor, evalExpr]
      infer_instance
    · rw [evalExpr_strict t hand hor]
      infer_instance

instance (e : Expr) : Runs True assigns (evalExpr t e) := by
  induction e with
  | missing | int | bool | var =>
      rw [evalExpr]
      infer_instance
  | unary ty op x ih =>
      rw [evalExpr]
      infer_instance
  | binary ty op l r ihl ihr => exact runs_binary ihl ihr
  | call ty name args ih =>
      have := runs_evalExprs ih
      rw [evalExpr]
      infer_instance
  | arrayLit ty elemTy elems ih =>
      have := runs_evalExprs ih
      rw [evalExpr]
      infer_instance
  | arrayFill ty n v ihn ihv =>
      rw [evalExpr]
      infer_instance
  | index ty a i iha ihi =>
      rw [evalExpr]
      infer_instance

instance (es : List Expr) : Runs True assigns (evalExprs t es) := runs_evalExprs inferInstance

instance (cond : Expr) : Runs True assigns (holds t cond) := by
  rw [holds]
  infer_instance

instance (cond : Eval Bool) (body : Eval Unit) [Runs prints assigns cond]
    [Runs prints assigns body] (bound : Nat) : Runs prints assigns (loop cond body bound) := by
  induction bound with
  | zero =>
      rw [loop]
      infer_instance
  | succ bound ih =>
      rw [loop]
      infer_instance

theorem runs_runStmts {stmts : List Stmt} (h : ∀ s ∈ stmts, Runs prints assigns (runStmt t s)) :
    Runs prints assigns (runStmts t stmts) := by
  induction stmts with
  | nil =>
      rw [runStmts]
      infer_instance
  | cons s rest ih =>
      obtain ⟨hs, hrest⟩ := List.forall_mem_cons.mp h
      have := ih hrest
      rw [runStmts]
      infer_instance

instance (s : Stmt) : Runs True True (runStmt t s) := by
  induction s with
  | missing | expr | assign | indexAssign =>
      rw [runStmt]
      infer_instance
  | ifElse cond thenBody elseBody ihthen ihelse =>
      have := runs_runStmts ihthen
      have := runs_runStmts ihelse
      rw [runStmt]
      infer_instance
  | whileDo cond body ih =>
      have := runs_runStmts ih
      rw [runStmt]
      infer_instance

instance (stmts : List Stmt) : Runs True True (runStmts t stmts) := runs_runStmts inferInstance

/-- An expression that has a value prints nothing. -/
theorem runs_of_hasType {tier : Tier} {env : Env} {e : Expr} {ty : Ty}
    (h : HasType tier env e ty) (hty : ty ≠ .void) : Runs prints assigns (evalExpr t e) := by
  induction h with
  | int | bool | var =>
      rw [evalExpr]
      infer_instance
  | neg hx ih | not hx ih =>
      have := ih (by simp)
      rw [evalExpr]
      infer_instance
  | arith _ _ _ ihl ihr | order _ _ _ ihl ihr | logic _ _ _ ihl ihr =>
      exact runs_binary (ihl (by simp)) (ihr (by simp))
  | identity _ _ ihl ihr => exact runs_binary (ihl (by simp)) (ihr (by simp))
  | equality _ hmem _ _ ihl ihr =>
      have hne : ∀ ty ∈ [Ty.int, .bool], ty ≠ .void := by simp
      exact runs_binary (ihl (hne _ hmem)) (ihr (hne _ hmem))
  | print => exact absurd rfl hty
  | input =>
      rw [evalExpr, evalExprs, pure_bind, callValue_input]
      infer_instance
  | len _ hx ih =>
      have := ih (by simp)
      rw [evalExpr, evalExprs_singleton, bind_assoc]
      simp only [pure_bind, callValue_len]
      infer_instance
  | arrayLit _ helem _ _ ih =>
      have := runs_evalExprs fun e he => ih e he helem.ne_void
      rw [evalExpr]
      infer_instance
  | arrayFill _ helem _ _ ihn ihv =>
      have := ihn (by simp)
      have := ihv helem.ne_void
      rw [evalExpr]
      infer_instance
  | index _ _ _ iha ihi =>
      have := iha (by simp)
      have := ihi (by simp)
      rw [evalExpr]
      infer_instance

/-- Only an expression that stands alone prints. -/
theorem runs_of_stmtTyped {tier : Tier} {env : Env} {s : Stmt} (h : StmtTyped tier env s)
    (hs : s.every Stmt.isSilent = true) : Runs prints True (runStmt t s) := by
  have hexpr {e : Expr} {ty : Ty} (he : HasType tier env e ty) (hty : ty ≠ .void) :
      Runs prints True (evalExpr t e) := runs_of_hasType he hty
  have hlist {ss : List Stmt} (ih : ∀ s ∈ ss, s.every Stmt.isSilent = true →
      Runs prints True (runStmt t s)) (hss : Stmt.listEvery Stmt.isSilent ss = true) :
      Runs prints True (runStmts t ss) := by
    rw [Stmt.listEvery_eq, List.all_eq_true] at hss
    exact runs_runStmts fun s hs => ih s hs (hss s hs)
  induction h with
  | expr => simp [Stmt.every, Stmt.isSilent] at hs
  | assign _ hty hvalue =>
      have := hexpr hvalue hty.ne_void
      rw [runStmt]
      infer_instance
  | indexAssign _ ha hi hvalue =>
      have := hexpr ha (by simp)
      have := hexpr hi (by simp)
      have := hexpr hvalue ha.elem_isValue.ne_void
      rw [runStmt]
      infer_instance
  | ifElse hcond _ _ ihthen ihelse =>
      simp only [Stmt.every, Bool.and_eq_true] at hs
      have := hexpr hcond (by simp)
      have := hlist ihthen hs.1.2
      have := hlist ihelse hs.2
      rw [runStmt, holds]
      infer_instance
  | whileDo hcond _ ih =>
      simp only [Stmt.every, Bool.and_eq_true] at hs
      have := hexpr hcond (by simp)
      have := hlist ih hs.2
      rw [runStmt, holds]
      infer_instance

end

/-! ## What runs keep -/

section

variable {α : Type} {prints assigns : Prop} (c : Eval α) (w : World)

theorem history_grows [h : Runs True True c] : w.history <+: (endWorld (c w)).history := by
  have hends := h.ends w
  generalize c w = r at hends ⊢
  cases hends with
  | ok hsteps | error hsteps | reported _ hsteps => exact hsteps.history_grows

/-- What comes next adds to the history. -/
theorem history_grows_bind {β : Type} {f : α → Eval β} [∀ a, Runs True True (f a)] :
    (endWorld (c w)).history <+: (endWorld ((c >>= f) w)).history := by
  rw [run_bind]
  cases c w with
  | ok a w' => exact history_grows (f a) w'
  | error why w' => exact List.prefix_rfl

theorem fuel_le [h : Runs True True c] : (endWorld (c w)).fuel ≤ w.fuel := by
  have hends := h.ends w
  generalize c w = r at hends ⊢
  cases hends with
  | ok hsteps | error hsteps | reported _ hsteps => exact hsteps.fuel_le

theorem memory_size [h : Runs True True c] : (endWorld (c w)).memory.size = w.memory.size := by
  have hends := h.ends w
  generalize c w = r at hends ⊢
  cases hends with
  | ok hsteps | error hsteps | reported _ hsteps => exact hsteps.memory_size

theorem Runs.vars_eq {c : Eval α} (h : Runs prints False c) : (endWorld (c w)).vars = w.vars := by
  have hends := h.ends w
  generalize c w = r at hends ⊢
  cases hends with
  | ok hsteps | error hsteps | reported _ hsteps => exact hsteps.vars_eq

theorem vars_eq [h : Runs True False c] : (endWorld (c w)).vars = w.vars := h.vars_eq w

theorem vars_eq_of_ok {c : Eval α} {w w' : World} {a : α} [Runs True False c]
    (h : c w = .ok a w') : w'.vars = w.vars := by
  have hvars := vars_eq c w
  rwa [h] at hvars

variable {c}

theorem Runs.stdout_eq (h : Runs False assigns c) :
    (endWorld (c w)).console.stdout = w.console.stdout := by
  have hends := h.ends w
  generalize c w = r at hends ⊢
  cases hends with
  | ok hsteps | error hsteps | reported _ hsteps => exact hsteps.stdout_eq

/-- Nothing is reported unless the run halts with a report. -/
theorem Runs.stderr_eq (h : Runs prints assigns c)
    (hne : ∀ w', c w ≠ .error (.trap .unreachable) w') :
    (endWorld (c w)).console.stderr = w.console.stderr := by
  have hends := h.ends w
  generalize c w = r at hends hne ⊢
  cases hends with
  | ok hsteps | error hsteps => exact hsteps.stderr_eq
  | reported => exact absurd rfl (hne _)

/-- A run that halts with a report has reported nothing else. -/
theorem Runs.exists_report {w w' : World} (h : Runs prints assigns c)
    (hrun : c w = .error (.trap .unreachable) w') :
    ∃ message, w'.console.stderr = (w.console.report message).stderr := by
  have hends := h.ends w
  rw [hrun] at hends
  cases hends with
  | error _ hwhy => exact absurd rfl hwhy
  | reported message hsteps =>
      refine ⟨message, ?_⟩
      rw [Host.Console.report, Host.Console.report, hsteps.stderr_eq]

end

end ArrayLang.Reference
