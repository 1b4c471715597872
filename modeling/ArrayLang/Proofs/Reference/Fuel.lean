import ArrayLang.Proofs.Reference.Steps
import Mathlib.Order.Nat

/-!
# Fuel

With fuel for one more iteration a run does the same, unless it was out of fuel; then it comes
further, and if it comes to its end, it has used up all its fuel.  The bound of a loop does not
matter as long as it is not below the fuel.
-/

namespace ArrayLang.Reference

open Source Code Machine Emit

/-- The same world with fuel for one more iteration. -/
def World.more (w : World) : World := { w with fuel := w.fuel + 1 }

section

variable (w : World)

@[simp] theorem World.memory_more : w.more.memory = w.memory := rfl

@[simp] theorem World.frontier_more : w.more.frontier = w.frontier := rfl

@[simp] theorem World.fuel_more : w.more.fuel = w.fuel + 1 := rfl

end

/-- How a result is related to the result with more fuel. -/
inductive Shifted {α : Type} :
    EStateM.Result Halt World α → EStateM.Result Halt World α → Prop
  | ok (a : α) (w : World) : Shifted (.ok a w) (.ok a w.more)
  | error (why : Halt) (w : World) : Shifted (.error why w) (.error why w.more)
  | out {w : World} {r : EStateM.Result Halt World α} :
      w.history <+: (endWorld r).history → (∀ a w', r = .ok a w' → w'.fuel = 0) →
      Shifted (.error .canceled w) r

/-- More fuel makes no other difference to a computation. -/
class Shifts {α : Type} (c : Eval α) : Prop where
  shifted : ∀ w, Shifted (c w) (c w.more)

section

variable {α β : Type} {w : World}

theorem Shifted.bind {x x' : Eval α} {f f' : α → Eval β} {w' : World}
    [hruns : ∀ a, Runs True True (f' a)] (hx : Shifted (x w) (x' w'))
    (hf : ∀ a w₁, x w = .ok a w₁ → Shifted (f a w₁) (f' a w₁.more)) :
    Shifted ((x >>= f) w) ((x' >>= f') w') := by
  rw [run_bind, run_bind]
  generalize x w = r at hx hf ⊢
  generalize x' w' = r' at hx ⊢
  cases hx with
  | ok a w₁ => exact hf a w₁ rfl
  | error why w₁ => exact .error why w₁
  | out hhistory hfuel =>
      cases r' with
      | error why w₂ => exact .out hhistory (by simp)
      | ok a w₂ =>
          refine .out (hhistory.trans (Reference.history_grows (f' a) w₂)) ?_
          intro b w₃ hrun
          have hrun' : f' a w₂ = .ok b w₃ := hrun
          have hle := fuel_le (f' a) w₂
          rw [hfuel a w₂ rfl, hrun'] at hle
          exact Nat.le_zero.mp hle

instance (a : α) : Shifts (pure a : Eval α) := ⟨fun w => .ok a w⟩

instance (x : Eval α) (f : α → Eval β) [hx : Shifts x] [hf : ∀ a, Shifts (f a)]
    [∀ a, Runs True True (f a)] : Shifts (x >>= f) :=
  ⟨fun w => (hx.shifted w).bind fun a w₁ _ => (hf a).shifted w₁⟩

instance (p : Prop) [Decidable p] (x y : Eval α) [hx : Shifts x] [hy : Shifts y] :
    Shifts (if p then x else y) := by
  split
  · exact hx
  · exact hy

/-- Looking at the frontier is looking at no fuel. -/
theorem Shifts.of_frontier {f : UInt32 → Eval α} (h : ∀ frontier, Shifts (f frontier)) :
    Shifts (get >>= fun w => f w.frontier) :=
  ⟨fun w => (h w.frontier).shifted w⟩

instance (e : Event) : Shifts (note e) := ⟨fun _ => .ok _ _⟩

instance (name : String) : Shifts (readVar name) := ⟨fun _ => .ok _ _⟩

instance (name : String) (value : UInt64) : Shifts (assignVar name value) := ⟨fun _ => .ok _ _⟩

instance (purpose : Purpose) (array : UInt32) (ty : ValType) (address : UInt32) :
    Shifts (load purpose array ty address) := by
  constructor
  intro w
  rw [run_load, run_load]
  by_cases h : inBounds w.memory ty address = true
  · rw [if_pos h, if_pos (by exact h)]
    exact .ok _ _
  · rw [if_neg h, if_neg (by exact h)]
    exact .error _ _

instance (purpose : Purpose) (array : UInt32) (ty : ValType) (address : UInt32) (value : UInt64) :
    Shifts (store purpose array ty address value) := by
  constructor
  intro w
  rw [run_store, run_store]
  by_cases h : inBounds w.memory ty address = true
  · rw [if_pos h, if_pos (by exact h)]
    exact .ok _ _
  · rw [if_neg h, if_neg (by exact h)]
    exact .error _ _

instance (msg : Message) : Shifts (report msg) := by
  constructor
  intro w
  rw [run_report, run_report]
  by_cases h : w.memory.size < msg.offset.toUInt32.toNat + msg.length.toUInt32.toNat
  · simp only [World.memory_more, h, if_true]
    exact .error _ _
  · simp only [World.memory_more, h, if_false]
    exact .error _ _

instance (ok : Bool) (msg : Message) : Shifts (require ok msg) := by
  rw [require]
  infer_instance

instance (ty : Ty) (value : UInt64) : Shifts (print ty value) := ⟨fun _ => .ok _ _⟩

instance : Shifts input := by
  constructor
  intro w
  cases h : w.console.input.readInt with
  | mk answer rest =>
      cases answer with
      | ok value =>
          rw [run_input_ok w h, run_input_ok w.more h]
          exact .ok _ _
      | error e =>
          rw [run_input_error w h, run_input_error w.more h]
          exact .error _ _

/-! ## Taking fuel -/

theorem run_tick_zero (h : w.fuel = 0) : tick w = .error .canceled w := by
  rw [run_tick, if_pos h]

theorem run_tick_more (w : World) : tick w.more = .ok () w := by
  rw [run_tick, if_neg (by simp)]
  rfl

/-- A world with fuel is one that has more than another one. -/
theorem World.exists_more (h : w.fuel ≠ 0) : ∃ w₁ : World, w = w₁.more ∧ w.fuel = w₁.fuel + 1 := by
  obtain ⟨n, hn⟩ := Nat.exists_eq_succ_of_ne_zero h
  refine ⟨{ w with fuel := n }, ?_, hn⟩
  cases w
  cases hn
  rfl

theorem eq_more_of_tick {w₁ : World} (h : tick w = .ok () w₁) : w = w₁.more := by
  by_cases hfuel : w.fuel = 0
  · rw [run_tick_zero hfuel] at h
    exact absurd h (by simp)
  · obtain ⟨w₂, rfl, -⟩ := World.exists_more hfuel
    rw [run_tick_more] at h
    rw [(EStateM.Result.ok.inj h).2]

instance : Shifts tick := by
  constructor
  intro w
  rw [run_tick_more]
  by_cases hfuel : w.fuel = 0
  · rw [run_tick_zero hfuel]
    refine .out (List.prefix_refl _) ?_
    intro a w' h
    rw [← (EStateM.Result.ok.inj h).2]
    exact hfuel
  · obtain ⟨w₁, rfl, -⟩ := World.exists_more hfuel
    rw [run_tick_more]
    exact .ok _ _

/-- What is out of fuel comes further with more of it. -/
theorem Shifted.tick_bind {f : Unit → Eval α} [Runs True True (f ())] (h : w.fuel = 0) :
    Shifted (.error .canceled w) ((tick >>= f) w.more) := by
  rw [run_bind_ok _ (run_tick_more w)]
  refine .out (Reference.history_grows (f ()) w) ?_
  intro a w' hrun
  have hle := fuel_le (f ()) w
  rw [h, hrun] at hle
  exact Nat.le_zero.mp hle

theorem fuel_le_of_ok {c : Eval α} {w₁ : World} {a : α} [Runs True True c]
    (h : c w = .ok a w₁) : w₁.fuel ≤ w.fuel := by
  have hle := fuel_le c w
  rwa [h] at hle

theorem shifted_fillFrom (base : UInt32) (elem : Ty) (value : UInt64) (bound : Nat)
    (cursor : UInt32) (h : w.fuel ≤ bound) :
    Shifted (fillFrom base elem value bound cursor w)
      (fillFrom base elem value (bound + 1) cursor w.more) := by
  induction bound generalizing w cursor with
  | zero =>
      rw [fillFrom, fillFrom]
      exact Shifted.tick_bind (Nat.le_zero.mp h)
  | succ bound ih =>
      rw [fillFrom, fillFrom]
      refine (Shifts.shifted (c := tick) w).bind fun _ w₁ htick => ?_
      obtain rfl := eq_more_of_tick htick
      rw [run_bind_ok _ (run_get w₁), run_bind_ok _ (run_get w₁.more), World.frontier_more]
      split
      · refine (Shifts.shifted (c := store _ _ _ _ _) w₁).bind fun _ w₂ hstore => ?_
        exact ih _ ((fuel_le_of_ok hstore).trans (Nat.le_of_succ_le_succ h))
      · exact .ok _ _

theorem shifted_loop (cond : Eval Bool) (body : Eval Unit) [Shifts cond] [Runs True True cond]
    [Shifts body] [Runs True True body] (bound : Nat) (h : w.fuel ≤ bound) :
    Shifted (loop cond body bound w) (loop cond body (bound + 1) w.more) := by
  induction bound generalizing w with
  | zero =>
      rw [loop, loop]
      exact Shifted.tick_bind (Nat.le_zero.mp h)
  | succ bound ih =>
      rw [loop, loop]
      refine (Shifts.shifted (c := tick) w).bind fun _ w₁ htick => ?_
      obtain rfl := eq_more_of_tick htick
      refine (Shifts.shifted (c := cond) w₁).bind fun b w₂ hcond => ?_
      have hle := (fuel_le_of_ok hcond).trans (Nat.le_of_succ_le_succ h)
      cases b with
      | false => exact .ok _ _
      | true =>
          refine (Shifts.shifted (c := body) w₂).bind fun _ w₃ hbody => ?_
          exact ih ((fuel_le_of_ok hbody).trans hle)

theorem run_bind_congr {x : Eval α} {f f' : α → Eval β}
    (h : ∀ a w₁, x w = .ok a w₁ → f a w₁ = f' a w₁) : (x >>= f) w = (x >>= f') w := by
  cases hx : x w with
  | ok a w₁ => rw [run_bind_ok w hx, run_bind_ok w hx, h a w₁ hx]
  | error why w₁ => rw [run_bind_error w hx, run_bind_error w hx]

theorem loop_succ {cond : Eval Bool} {body : Eval Unit} [Runs True True cond]
    [Runs True True body] {bound : Nat} (h : w.fuel ≤ bound) :
    loop cond body (bound + 1) w = loop cond body bound w := by
  induction bound generalizing w with
  | zero => rw [loop, loop, run_bind_error w (run_tick_zero (Nat.le_zero.mp h)), run_throw]
  | succ bound ih =>
      rw [loop, loop]
      refine run_bind_congr fun _ w₁ htick => ?_
      obtain rfl := eq_more_of_tick htick
      refine run_bind_congr fun b w₂ hcond => ?_
      have hle := (fuel_le_of_ok hcond).trans (Nat.le_of_succ_le_succ h)
      cases b with
      | false => rfl
      | true =>
          refine run_bind_congr fun _ w₃ hbody => ?_
          exact ih ((fuel_le_of_ok hbody).trans hle)

/-- A bound above the fuel makes no difference. -/
theorem loop_bound {cond : Eval Bool} {body : Eval Unit} [Runs True True cond]
    [Runs True True body] {bound : Nat} (h : w.fuel ≤ bound) :
    loop cond body bound w = loop cond body w.fuel w := by
  induction bound with
  | zero => rw [Nat.le_zero.mp h]
  | succ bound ih =>
      rcases Nat.lt_or_eq_of_le h with hlt | heq
      · rw [loop_succ (Nat.lt_succ_iff.mp hlt)]
        exact ih (Nat.lt_succ_iff.mp hlt)
      · rw [heq]

/-! ## Arrays, expressions and statements -/

variable {t : Target}

instance (length : UInt64) (elem : Ty) : Shifts (allocate t length elem) := by
  have hadvance (x : Extent) :
      Shifts (do
        note (.made x)
        modify fun w => { w with frontier := pastArray x.address x.length x.elem }
        return x.address) := ⟨fun _ => .ok _ _⟩
  rw [allocate]
  have := Shifts.of_frontier (f := fun base => do
    store .make base .i32 base
      (Layout.encodeHeader length.toUInt32 (Layout.ElemKind.ofTy elem).code).toUInt64
    note (.made ⟨base, length.toUInt32, elem⟩)
    modify fun w => { w with frontier := pastArray base length.toUInt32 elem }
    return base) inferInstance
  infer_instance

instance (base : UInt32) (elem : Ty) (position : Nat) (values : List UInt64) :
    Shifts (storeElems base elem position values) := by
  induction values generalizing position with
  | nil =>
      rw [storeElems]
      infer_instance
  | cons v rest ih =>
      rw [storeElems]
      infer_instance

instance (elem : Ty) (values : List UInt64) : Shifts (makeList t elem values) := by
  rw [makeList]
  infer_instance

instance (base : UInt32) (elem : Ty) (value : UInt64) (cursor : UInt32) :
    Shifts (fillArray base elem value cursor) :=
  ⟨fun w => shifted_fillFrom base elem value w.fuel cursor (Nat.le_refl _)⟩

instance (elem : Ty) (length value : UInt64) : Shifts (makeFill t elem length value) := by
  rw [makeFill]
  infer_instance

instance (purpose : Purpose) (array : UInt64) : Shifts (lengthAt purpose array) := by
  rw [lengthAt]
  infer_instance

instance (purpose : Purpose) (elem : Ty) (array index : UInt64) :
    Shifts (locate t purpose elem array index) := by
  unfold locate checkIndex
  infer_instance

instance (elem : Ty) (array index : UInt64) : Shifts (readElem t elem array index) := by
  rw [readElem]
  infer_instance

instance (name : String) (args : List Expr) (values : List UInt64) :
    Shifts (callValue name args values) := by
  unfold callValue
  split <;> infer_instance

theorem shifts_evalExprs {es : List Expr} (h : ∀ e ∈ es, Shifts (evalExpr t e)) :
    Shifts (evalExprs t es) := by
  induction es with
  | nil =>
      rw [evalExprs]
      infer_instance
  | cons e rest ih =>
      obtain ⟨he, hrest⟩ := List.forall_mem_cons.mp h
      have := ih hrest
      rw [evalExprs]
      infer_instance

instance (e : Expr) : Shifts (evalExpr t e) := by
  induction e with
  | missing | int | bool | var =>
      rw [evalExpr]
      infer_instance
  | unary ty op x ih =>
      rw [evalExpr]
      infer_instance
  | binary ty op l r ihl ihr =>
      by_cases hand : op = .and
      · rw [hand, evalExpr]
        infer_instance
      · by_cases hor : op = .or
        · rw [hor, evalExpr]
          infer_instance
        · rw [evalExpr_strict t hand hor]
          infer_instance
  | call ty name args ih =>
      have := shifts_evalExprs ih
      rw [evalExpr]
      infer_instance
  | arrayLit ty elemTy elems ih =>
      have := shifts_evalExprs ih
      rw [evalExpr]
      infer_instance
  | arrayFill ty n v ihn ihv =>
      rw [evalExpr]
      infer_instance
  | index ty a i iha ihi =>
      rw [evalExpr]
      infer_instance

instance (cond : Expr) : Shifts (holds t cond) := by
  rw [holds]
  infer_instance

theorem shifts_runStmts {stmts : List Stmt} (h : ∀ s ∈ stmts, Shifts (runStmt t s)) :
    Shifts (runStmts t stmts) := by
  induction stmts with
  | nil =>
      rw [runStmts]
      infer_instance
  | cons s rest ih =>
      obtain ⟨hs, hrest⟩ := List.forall_mem_cons.mp h
      have := ih hrest
      rw [runStmts]
      infer_instance

instance (s : Stmt) : Shifts (runStmt t s) := by
  induction s with
  | missing | expr | assign | indexAssign =>
      rw [runStmt]
      infer_instance
  | ifElse cond thenBody elseBody ihthen ihelse =>
      have := shifts_runStmts ihthen
      have := shifts_runStmts ihelse
      rw [runStmt]
      infer_instance
  | whileDo cond body ih =>
      have := shifts_runStmts ih
      rw [runStmt]
      exact ⟨fun w => shifted_loop (holds t cond) (runStmts t body) w.fuel (Nat.le_refl _)⟩

instance (stmts : List Stmt) : Shifts (runStmts t stmts) := shifts_runStmts inferInstance

end

end ArrayLang.Reference
