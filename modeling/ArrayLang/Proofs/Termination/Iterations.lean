import ArrayLang.Proofs.Heap.Making
import ArrayLang.Proofs.Reference.Fuel

/-!
# Iterations without `while`

Only loops take fuel, and without `while` the only loops are those that fill new arrays.  Such a
loop runs until its cursor is at the frontier.  The cursor starts a whole number of elements below
the frontier, or, if the end of the array is behind the last address and the frontier wrapped, not
below it at all.  So each fill takes at most one iteration more than an array can have elements,
whatever the world is.
-/

namespace ArrayLang.Source

/-- The expression makes an array of equal elements. -/
def Expr.isFill : Expr → Bool
  | arrayFill .. => true
  | _ => false

/-- The statement is no loop. -/
def Stmt.isStraight : Stmt → Bool
  | whileDo .. => false
  | _ => true

end ArrayLang.Source

namespace ArrayLang.Reference

open Source Code Machine Emit

/-- Fuel for all arrays of equal elements that are made by some nodes. -/
def fillFuel (nodes : List Expr) : Nat := nodes.countP Expr.isFill * (Layout.maxLength + 1)

theorem fillFuel_nil : fillFuel [] = 0 := Nat.zero_mul _

theorem fillFuel_append (nodes nodes' : List Expr) :
    fillFuel (nodes ++ nodes') = fillFuel nodes + fillFuel nodes' := by
  rw [fillFuel, List.countP_append, Nat.add_mul]
  rfl

theorem fillFuel_cons {e : Expr} (nodes : List Expr) (h : e.isFill = false) :
    fillFuel (e :: nodes) = fillFuel nodes := by
  rw [fillFuel, List.countP_cons_of_neg (by simp [h])]
  rfl

theorem fillFuel_arrayFill (ty : Ty) (n v : Expr) (nodes : List Expr) :
    fillFuel (.arrayFill ty n v :: nodes) = fillFuel nodes + (Layout.maxLength + 1) := by
  rw [fillFuel, List.countP_cons_of_pos rfl, Nat.succ_mul]
  rfl

theorem fillFuel_binary (ty : Ty) (op : BinaryOp) (l r : Expr) :
    fillFuel (Expr.binary ty op l r).nodes = fillFuel l.nodes + fillFuel r.nodes := by
  rw [Expr.nodes, fillFuel_cons _ rfl, fillFuel_append]

/-- A result was not canceled, and at most `n` iterations were made for it. -/
inductive Spent (n : Nat) (w : World) {α : Type} : EStateM.Result Halt World α → Prop
  | ok {a : α} {w' : World} : w.fuel ≤ w'.fuel + n → Spent n w (.ok a w')
  | error {why : Halt} {w' : World} : why ≠ .canceled → Spent n w (.error why w')

/-- With fuel for `n` iterations a computation is not canceled, and it makes no more of them. -/
class Spends {α : Type} (n : Nat) (c : Eval α) : Prop where
  spent : ∀ w, n ≤ w.fuel → Spent n w (c w)

section

variable {α β : Type} {m n : Nat} {w : World}

theorem Spent.mono {r : EStateM.Result Halt World α} (h : Spent m w r) (hmn : m ≤ n) :
    Spent n w r := by
  cases h with
  | ok hle => exact .ok (by omega)
  | error hwhy => exact .error hwhy

theorem Spent.bind {x : Eval α} {f : α → Eval β} (hx : Spent m w (x w))
    (hf : ∀ a w₁, x w = .ok a w₁ → w.fuel ≤ w₁.fuel + m → Spent n w₁ (f a w₁)) :
    Spent (m + n) w ((x >>= f) w) := by
  rw [run_bind]
  generalize x w = r at hx hf ⊢
  cases hx with
  | error hwhy => exact .error hwhy
  | @ok a w₁ hle =>
      have hrest := hf a w₁ rfl hle
      dsimp only
      generalize f a w₁ = r' at hrest ⊢
      cases hrest with
      | ok hle' => exact .ok (by omega)
      | error hwhy => exact .error hwhy

theorem Spends.mono {c : Eval α} (h : Spends m c) (hmn : m ≤ n) : Spends n c :=
  ⟨fun w hfuel => (h.spent w (hmn.trans hfuel)).mono hmn⟩

theorem Spends.bind {x : Eval α} {f : α → Eval β} (hx : Spends m x) (hf : ∀ a, Spends n (f a)) :
    Spends (m + n) (x >>= f) := by
  constructor
  intro w hfuel
  refine (hx.spent w (by omega)).bind fun a w₁ _ hle => ?_
  exact (hf a).spent w₁ (by omega)

theorem Spends.then {x : Eval α} {f : α → Eval β} (hx : Spends m x) [hf : ∀ a, Spends 0 (f a)] :
    Spends m (x >>= f) :=
  (hx.bind hf).mono (Nat.add_zero m).le

/-! ## Steps that take no fuel -/

instance (a : α) : Spends n (pure a : Eval α) := ⟨fun _ _ => .ok (Nat.le_add_right _ _)⟩

instance (x : Eval α) (f : α → Eval β) [hx : Spends 0 x] [hf : ∀ a, Spends n (f a)] :
    Spends n (x >>= f) :=
  (hx.bind hf).mono (Nat.zero_add n).le

instance : Spends n (get : Eval World) := ⟨fun _ _ => .ok (Nat.le_add_right _ _)⟩

instance (p : Prop) [Decidable p] (x y : Eval α) [hx : Spends n x] [hy : Spends n y] :
    Spends n (if p then x else y) := by
  split
  · exact hx
  · exact hy

instance (e : Event) : Spends n (note e) := ⟨fun _ _ => .ok (Nat.le_add_right _ _)⟩

instance (name : String) : Spends n (readVar name) := ⟨fun _ _ => .ok (Nat.le_add_right _ _)⟩

instance (name : String) (value : UInt64) : Spends n (assignVar name value) :=
  ⟨fun _ _ => .ok (Nat.le_add_right _ _)⟩

instance (purpose : Purpose) (array : UInt32) (ty : ValType) (address : UInt32) :
    Spends n (load purpose array ty address) := by
  constructor
  intro w _
  rw [run_load]
  split
  · exact .ok (Nat.le_add_right _ _)
  · exact .error (by simp)

instance (purpose : Purpose) (array : UInt32) (ty : ValType) (address : UInt32) (value : UInt64) :
    Spends n (store purpose array ty address value) := by
  constructor
  intro w _
  rw [run_store]
  split
  · exact .ok (Nat.le_add_right _ _)
  · exact .error (by simp)

instance (msg : Message) : Spends n (report msg) := by
  constructor
  intro w _
  rw [run_report]
  dsimp only
  split
  · exact .error (by simp)
  · exact .error (by simp)

instance (ok : Bool) (msg : Message) : Spends n (require ok msg) := by
  rw [require]
  infer_instance

instance (ty : Ty) (value : UInt64) : Spends n (print ty value) :=
  ⟨fun _ _ => .ok (Nat.le_add_right _ _)⟩

instance : Spends n input := by
  constructor
  intro w _
  cases h : w.console.input.readInt with
  | mk answer rest =>
      cases answer with
      | ok value =>
          rw [run_input_ok w h]
          exact .ok (Nat.le_add_right _ _)
      | error e =>
          rw [run_input_error w h]
          exact .error (by simp)

/-! ## Arrays -/

variable {t : Target}

instance (length : UInt64) (elem : Ty) : Spends n (allocate t length elem) := by
  have hadvance (frontier : UInt32) :
      Spends 0 (modify fun w => { w with frontier } : Eval Unit) :=
    ⟨fun _ _ => .ok (Nat.le_add_right _ _)⟩
  rw [allocate]
  dsimp only
  infer_instance

instance (base : UInt32) (elem : Ty) (position : Nat) (values : List UInt64) :
    Spends n (storeElems base elem position values) := by
  induction values generalizing position with
  | nil =>
      rw [storeElems]
      infer_instance
  | cons v rest ih =>
      rw [storeElems]
      infer_instance

instance (elem : Ty) (values : List UInt64) : Spends n (makeList t elem values) := by
  rw [makeList]
  infer_instance

instance (purpose : Purpose) (array : UInt64) : Spends n (lengthAt purpose array) := by
  rw [lengthAt]
  infer_instance

instance (purpose : Purpose) (elem : Ty) (array index : UInt64) :
    Spends n (locate t purpose elem array index) := by
  unfold locate checkIndex
  infer_instance

instance (elem : Ty) (array index : UInt64) : Spends n (readElem t elem array index) := by
  rw [readElem]
  infer_instance

instance (name : String) (args : List Expr) (values : List UInt64) :
    Spends n (callValue name args values) := by
  unfold callValue
  split <;> infer_instance

/-- The cursor of a fill is some elements below the frontier, or it is not below it. -/
def Approaches (elem : Ty) (frontier cursor : UInt32) (k : Nat) : Prop :=
  frontier.toNat ≤ cursor.toNat ∨ cursor.toNat + k * Layout.width elem = frontier.toNat

/-- As long as the cursor is below the frontier, the next element does not end behind it. -/
theorem Approaches.next {elem : Ty} {frontier cursor : UInt32} {k : Nat}
    (h : Approaches elem frontier cursor k) (hlt : cursor < frontier) :
    ∃ j, k = j + 1 ∧ Approaches elem frontier (cursor + UInt32.ofNat (Layout.width elem)) j := by
  have hbelow : cursor.toNat < frontier.toNat := hlt
  have hbound := frontier.toNat_lt
  obtain hdone | hsum := h
  · omega
  · cases k with
    | zero => omega
    | succ j =>
        refine ⟨j, rfl, .inr ?_⟩
        rw [UInt32.toNat_add, UInt32.toNat_ofNat']
        rcases width_eq elem with hwidth | hwidth
        all_goals
          rw [hwidth] at hsum ⊢
          omega

/-- The cursor starts below the frontier by the elements of the array, unless the frontier
wrapped. -/
theorem approaches_start {x : Extent} (h : x.count ≤ Layout.maxLength) :
    Approaches x.elem (pastArray x.address x.length x.elem)
      (x.address + UInt32.ofNat Layout.headerSize) x.count := by
  have haddress := x.address.toNat_lt
  rw [Approaches, toNat_pastArray_eq_mod, Extent.stop, Extent.bytes, UInt32.toNat_add,
    UInt32.toNat_ofNat']
  rcases width_eq x.elem with hwidth | hwidth
  all_goals
    rw [hwidth]
    simp only [Layout.maxLength, Layout.headerSize, UInt32.size] at h ⊢
    omega

theorem frontier_of_store {purpose : Purpose} {array address : UInt32} {ty : ValType}
    {value : UInt64} {w₁ : World} (h : store purpose array ty address value w = .ok () w₁) :
    w₁.frontier = w.frontier := by
  rw [run_store] at h
  split at h
  · rw [← (EStateM.Result.ok.inj h).2]
    rfl
  · cases h

/-- A fill makes an iteration for each element, and one in which it finds the frontier. -/
theorem spent_fillFrom {base cursor : UInt32} {elem : Ty} {value : UInt64} {bound k : Nat}
    (h : Approaches elem w.frontier cursor k) (hbound : k < bound) (hfuel : k < w.fuel) :
    Spent (k + 1) w (fillFrom base elem value bound cursor w) := by
  induction bound generalizing w cursor k with
  | zero => omega
  | succ bound ih =>
      obtain ⟨w₁, rfl, -⟩ := World.exists_more (Nat.ne_zero_of_lt hfuel)
      rw [World.frontier_more] at h
      rw [World.fuel_more] at hfuel
      have htick : Spent 1 w₁.more (tick w₁.more) := by
        rw [run_tick_more]
        exact .ok (Nat.le_refl _)
      rw [fillFrom, Nat.add_comm]
      refine htick.bind fun _ w₂ hrun _ => ?_
      rw [run_tick_more] at hrun
      obtain ⟨-, rfl⟩ := EStateM.Result.ok.inj hrun
      rw [run_bind_ok _ (run_get w₁)]
      by_cases hlt : cursor < w₁.frontier
      · rw [if_pos hlt]
        obtain ⟨j, rfl, hnext⟩ := h.next hlt
        rw [← Nat.zero_add (j + 1)]
        refine (Spends.spent w₁ (Nat.zero_le _)).bind fun _ w₂ hstore hle => ?_
        refine ih ?_ (by omega) (by omega)
        rwa [frontier_of_store hstore]
      · rw [if_neg hlt]
        exact .ok (Nat.le_add_right _ _)

/-- However long the array is and wherever it lies, so many iterations are enough. -/
instance (elem : Ty) (length value : UInt64) :
    Spends (Layout.maxLength + 1) (makeFill t elem length value) := by
  constructor
  intro w hfuel
  rw [makeFill, ← Nat.zero_add (Layout.maxLength + 1)]
  refine (Spends.spent w (Nat.zero_le _)).bind fun base w₁ hrun hle => ?_
  obtain ⟨hfits, -, rfl, rfl⟩ := exists_of_allocate hrun
  let x : Extent := ⟨w.frontier, length.toUInt32, elem⟩
  have hcount : x.count ≤ Layout.maxLength := (toNat_of_fits hfits).2.1
  have hfuel₁ : x.count < (w.allocated x).fuel := by
    have hkept : (w.allocated x).fuel = w.fuel := rfl
    omega
  have hfill : Spent (x.count + 1) (w.allocated x)
      (fillArray w.frontier elem value (w.frontier + UInt32.ofNat Layout.headerSize)
        (w.allocated x)) :=
    spent_fillFrom (approaches_start hcount) hfuel₁ hfuel₁
  refine (hfill.bind (n := 0) fun _ w₂ _ _ => ?_).mono (by omega)
  exact Spends.spent w₂ (Nat.zero_le _)

/-! ## Expressions -/

theorem spends_evalExprs {es : List Expr} (h : ∀ e ∈ es, Spends (fillFuel e.nodes) (evalExpr t e)) :
    Spends (fillFuel (Expr.listNodes es)) (evalExprs t es) := by
  induction es with
  | nil =>
      rw [evalExprs]
      infer_instance
  | cons e rest ih =>
      obtain ⟨he, hrest⟩ := List.forall_mem_cons.mp h
      rw [evalExprs, Expr.listNodes, fillFuel_append]
      exact he.bind fun _ => (ih hrest).then

/-- An expression takes fuel only for the arrays of equal elements in it. -/
instance (e : Expr) : Spends (fillFuel e.nodes) (evalExpr t e) := by
  induction e with
  | missing | int | bool | var =>
      rw [evalExpr]
      infer_instance
  | unary ty op x ih =>
      rw [evalExpr, Expr.nodes, fillFuel_cons _ rfl]
      exact ih.then
  | binary ty op l r ihl ihr =>
      rw [fillFuel_binary]
      by_cases hand : op = .and
      · rw [hand, evalExpr]
        exact ihl.bind fun _ => inferInstance
      · by_cases hor : op = .or
        · rw [hor, evalExpr]
          exact ihl.bind fun _ => inferInstance
        · rw [evalExpr_strict t hand hor]
          exact ihl.bind fun _ => ihr.then
  | call ty name args ih =>
      rw [evalExpr, Expr.nodes, fillFuel_cons _ rfl]
      exact (spends_evalExprs ih).then
  | arrayLit ty elemTy elems ih =>
      rw [evalExpr, Expr.nodes, fillFuel_cons _ rfl]
      exact (spends_evalExprs ih).then
  | arrayFill ty n v ihn ihv =>
      rw [evalExpr, Expr.nodes, fillFuel_arrayFill, fillFuel_append, Nat.add_assoc]
      exact ihn.bind fun _ => ihv.bind fun _ => inferInstance
  | index ty a i iha ihi =>
      rw [evalExpr, Expr.nodes, fillFuel_cons _ rfl, fillFuel_append]
      exact iha.bind fun _ => ihi.then

/-! ## Statements -/

theorem spends_runStmts {stmts : List Stmt}
    (h : ∀ s ∈ stmts, s.every Stmt.isStraight = true → Spends (fillFuel s.nodes) (runStmt t s))
    (hstraight : Stmt.listEvery Stmt.isStraight stmts = true) :
    Spends (fillFuel (Stmt.listNodes stmts)) (runStmts t stmts) := by
  induction stmts with
  | nil =>
      rw [runStmts]
      infer_instance
  | cons s rest ih =>
      obtain ⟨hs, hrest⟩ := List.forall_mem_cons.mp h
      rw [Stmt.listEvery, Bool.and_eq_true] at hstraight
      rw [runStmts, Stmt.listNodes, fillFuel_append]
      exact (hs hstraight.1).bind fun _ => ih hrest hstraight.2

theorem spends_runStmt {s : Stmt} (h : s.every Stmt.isStraight = true) :
    Spends (fillFuel s.nodes) (runStmt t s) := by
  induction s with
  | missing =>
      rw [runStmt]
      infer_instance
  | expr x =>
      rw [runStmt, Stmt.nodes]
      exact Spends.then inferInstance
  | assign name value =>
      rw [runStmt, Stmt.nodes]
      exact Spends.then inferInstance
  | indexAssign array index value =>
      rw [runStmt, Stmt.nodes, fillFuel_append, fillFuel_append, Nat.add_assoc]
      refine Spends.bind inferInstance fun _ => Spends.bind inferInstance fun _ => ?_
      have hstore (address : UInt32) (a : UInt64) :
          Spends (fillFuel value.nodes) (do
            let v ← evalExpr t value
            store .write a.toUInt32 (cellType value.ty) address v) :=
        Spends.then inferInstance
      infer_instance
  | ifElse cond thenBody elseBody ihthen ihelse =>
      rw [Stmt.every, Bool.and_eq_true, Bool.and_eq_true] at h
      have hthen := spends_runStmts ihthen h.1.2
      have helse := spends_runStmts ihelse h.2
      rw [runStmt, Stmt.nodes, fillFuel_append, fillFuel_append, Nat.add_assoc]
      have := hthen.mono (Nat.le_add_right _ (fillFuel (Stmt.listNodes elseBody)))
      have := helse.mono (Nat.le_add_left _ (fillFuel (Stmt.listNodes thenBody)))
      have hholds : Spends (fillFuel cond.nodes) (holds t cond) := by
        rw [holds]
        exact Spends.then inferInstance
      exact hholds.bind fun _ => inferInstance
  | whileDo cond body ih => exact absurd h (by simp [Stmt.every, Stmt.isStraight])

end

/-- From whatever world, statements without `while` end with fuel for the arrays of equal elements
in them. -/
theorem spent_runStmts {t : Target} {stmts : List Stmt} {w : World}
    (hstraight : Stmt.listEvery Stmt.isStraight stmts = true)
    (hfuel : fillFuel (Stmt.listNodes stmts) ≤ w.fuel) :
    Spent (fillFuel (Stmt.listNodes stmts)) w (runStmts t stmts w) :=
  (spends_runStmts (fun _ _ => spends_runStmt) hstraight).spent w hfuel

end ArrayLang.Reference
