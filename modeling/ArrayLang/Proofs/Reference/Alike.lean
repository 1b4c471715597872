import ArrayLang.Proofs.Reference.Steps

/-!
# Worlds that are alike

Two worlds may differ in some variables and in their history.  What an expression does depends on
its own variables only.
-/

namespace ArrayLang.Reference

open Source Code Machine Emit

/-- The worlds agree on everything but the history and the variables outside `S`. -/
structure Alike (S : String → Prop) (w w' : World) : Prop where
  vars : ∀ x, S x → w.vars x = w'.vars x
  memory : w.memory = w'.memory
  frontier : w.frontier = w'.frontier
  console : w.console = w'.console
  fuel : w.fuel = w'.fuel

/-- Both results are values that are related, or both halt for the same reason, in worlds that are
alike. -/
inductive Matches (S : String → Prop) {α β : Type} (Q : α → β → World → Prop) :
    EStateM.Result Halt World α → EStateM.Result Halt World β → Prop
  | ok {a : α} {b : β} {w w' : World} :
      Alike S w w' → Q a b w' → Matches S Q (.ok a w) (.ok b w')
  | error {why : Halt} {w w' : World} :
      Alike S w w' → Matches S Q (.error why w) (.error why w')

/-- The results match and their values are equal. -/
abbrev Same (S : String → Prop) {α : Type} :
    EStateM.Result Halt World α → EStateM.Result Halt World α → Prop :=
  Matches S fun a b _ => a = b

/-- All events up to a result are as `F` says. -/
abbrev Throughout (F : Event → Prop) {α : Type} (r : EStateM.Result Halt World α) : Prop :=
  ∀ e ∈ (endWorld r).history, F e

/-- From worlds that are alike, the second computation does the same as the first one, if all events
of the first one are as `F` says. -/
def Mimics (F : Event → Prop) (S : String → Prop) {α : Type} (c c' : Eval α) : Prop :=
  ∀ w w', Alike S w w' → Throughout F (c w) → Same S (c w) (c' w')

/-- A computation does not look at variables or at the history. -/
class Blind {α : Type} (c : Eval α) : Prop where
  same : ∀ S w w', Alike S w w' → Same S (c w) (c w')
  unread : ∀ w name, .read name ∈ (endWorld (c w)).history → .read name ∈ w.history

section

variable {α β γ : Type} {F : Event → Prop} {S : String → Prop} {w w' : World}

theorem Alike.refl (w : World) : Alike S w w := ⟨fun _ _ => rfl, rfl, rfl, rfl, rfl⟩

theorem Alike.trans {w'' : World} (h : Alike S w w') (h' : Alike S w' w'') : Alike S w w'' :=
  ⟨fun x hx => (h.vars x hx).trans (h'.vars x hx), h.memory.trans h'.memory,
    h.frontier.trans h'.frontier, h.console.trans h'.console, h.fuel.trans h'.fuel⟩

theorem Alike.mono {S' : String → Prop} (hS : ∀ x, S' x → S x) (h : Alike S w w') :
    Alike S' w w' :=
  ⟨fun x hx => h.vars x (hS x hx), h.memory, h.frontier, h.console, h.fuel⟩

theorem Alike.history (h : Alike S w w') (events events' : List Event) :
    Alike S { w with history := events } { w' with history := events' } :=
  ⟨h.vars, h.memory, h.frontier, h.console, h.fuel⟩

/-- The same assignment on both sides. -/
theorem Alike.assign (h : Alike S w w') (name : String) (value : UInt64) :
    Alike S (w.assign name value) (w'.assign name value) := by
  refine ⟨?_, h.memory, h.frontier, h.console, h.fuel⟩
  intro x hx
  by_cases hname : x = name
  · subst hname
    simp [World.assign]
  · simpa [World.assign, hname] using h.vars x hx

/-- An assignment on one side, to a variable that does not count. -/
theorem Alike.assign_right {name : String} (h : Alike S w w') (hname : ¬S name)
    (value : UInt64) : Alike S w (w'.assign name value) := by
  refine ⟨?_, h.memory, h.frontier, h.console, h.fuel⟩
  intro x hx
  have hne : x ≠ name := fun heq => hname (heq ▸ hx)
  simpa [World.assign, hne] using h.vars x hx

/-! ## Matching results -/

theorem Matches.mono {S' : String → Prop} {Q Q' : α → β → World → Prop}
    {r : EStateM.Result Halt World α} {r' : EStateM.Result Halt World β} (h : Matches S Q r r')
    (hS : ∀ x, S' x → S x) (hQ : ∀ a b w, Q a b w → Q' a b w) : Matches S' Q' r r' := by
  cases h with
  | ok halike hvalue => exact .ok (halike.mono hS) (hQ _ _ _ hvalue)
  | error halike => exact .error (halike.mono hS)

theorem Same.refl {α : Type} (r : EStateM.Result Halt World α) : Same S r r := by
  cases r with
  | ok a w => exact .ok (Alike.refl w) rfl
  | error why w => exact .error (Alike.refl w)

/-- Two results that match a third one in turn. -/
theorem Same.trans {Q : α → β → World → Prop} {r r' : EStateM.Result Halt World α}
    {r'' : EStateM.Result Halt World β} (h : Same S r r') (h' : Matches S Q r' r'') :
    Matches S Q r r'' := by
  cases h with
  | ok halike hvalue =>
      cases h' with
      | ok halike' hvalue' => exact .ok (halike.trans halike') (hvalue ▸ hvalue')
  | error halike =>
      cases h' with
      | error halike' => exact .error (halike.trans halike')

theorem Matches.bind {δ : Type} {Q : α → β → World → Prop} {R : γ → δ → World → Prop} {x : Eval α}
    {x' : Eval β} {f : α → Eval γ} {f' : β → Eval δ} (h : Matches S Q (x w) (x' w'))
    (hf : ∀ a b w₁ w₁', x w = .ok a w₁ → x' w' = .ok b w₁' → Alike S w₁ w₁' → Q a b w₁' →
      Matches S R (f a w₁) (f' b w₁')) :
    Matches S R ((x >>= f) w) ((x' >>= f') w') := by
  rw [run_bind, run_bind]
  generalize hx : x w = r at h ⊢
  generalize hx' : x' w' = r' at h ⊢
  cases h with
  | ok halike hvalue => exact hf _ _ _ _ hx hx' halike hvalue
  | error halike => exact .error halike

/-- The same start of two computations. -/
theorem Matches.after {δ : Type} {R : γ → δ → World → Prop} (c : Eval α) {f : α → Eval γ}
    {f' : α → Eval δ} (h : ∀ a w₁, c w = .ok a w₁ → Matches S R (f a w₁) (f' a w₁)) :
    Matches S R ((c >>= f) w) ((c >>= f') w) := by
  refine (Same.refl (S := S) (c w)).bind ?_
  intro a b w₁ w₁' hrun hrun' _ _
  rw [hrun] at hrun'
  obtain ⟨rfl, rfl⟩ := EStateM.Result.ok.inj hrun'
  exact h a w₁ hrun

theorem Throughout.of_bind {x : Eval α} {f : α → Eval β} [∀ a, Runs True True (f a)]
    (h : Throughout F ((x >>= f) w)) : Throughout F (x w) :=
  fun e he => h e ((history_grows_bind x w).subset he)

theorem Mimics.bind_of_matches {Q : α → β → World → Prop} {x : Eval α} {x' : Eval β}
    {f : α → Eval γ} {f' : β → Eval γ} [∀ a, Runs True True (f a)]
    (hx : ∀ w w', Alike S w w' → Throughout F (x w) → Matches S Q (x w) (x' w'))
    (hf : ∀ a b w w', Alike S w w' → Q a b w' → Throughout F (f a w) → Same S (f a w) (f' b w')) :
    Mimics F S (x >>= f) (x' >>= f') := by
  intro w w' halike hfair
  refine (hx w w' halike (Throughout.of_bind hfair)).bind ?_
  intro a b w₁ w₁' hrun _ halike₁ hvalue
  rw [run_bind_ok w hrun] at hfair
  exact hf a b w₁ w₁' halike₁ hvalue hfair

theorem Mimics.bind {x x' : Eval α} {f f' : α → Eval β} [∀ a, Runs True True (f a)]
    (hx : Mimics F S x x') (hf : ∀ a, Mimics F S (f a) (f' a)) :
    Mimics F S (x >>= f) (x' >>= f') := by
  refine Mimics.bind_of_matches hx ?_
  rintro a _ w w' halike rfl hfair
  exact hf a w w' halike hfair

theorem Mimics.pure (a : α) : Mimics F S (pure a) (pure a) := fun _ _ halike _ => .ok halike rfl

theorem Mimics.note (e e' : Event) : Mimics F S (note e) (note e') :=
  fun _ _ halike _ => .ok (halike.history _ _) rfl

theorem Mimics.of_blind (c : Eval α) [h : Blind c] : Mimics F S c c :=
  fun w w' halike _ => h.same S w w' halike

theorem Mimics.of_map {α β : Type} {g : α → β} {c c' : Eval α} (hg : Function.Injective g)
    (h : Mimics F S (do return g (← c)) (do return g (← c'))) : Mimics F S c c' := by
  intro w w' halike hfair
  have hsame := h w w' halike
  rw [run_bind, run_bind] at hsame
  generalize c w = r at hsame hfair ⊢
  generalize c' w' = r' at hsame ⊢
  cases r with
  | ok a w₁ =>
      specialize hsame hfair
      cases r' with
      | ok b w₁' =>
          cases hsame with
          | ok halike₁ heq => exact .ok halike₁ (hg heq)
      | error why w₁' => nomatch hsame
  | error why w₁ =>
      specialize hsame hfair
      cases r' with
      | ok b w₁' => nomatch hsame
      | error why' w₁' =>
          cases hsame with
          | error halike₁ => exact .error halike₁

/-! ## Computations that look at no variable -/

instance (a : α) : Blind (pure a : Eval α) :=
  ⟨fun _ _ _ halike => .ok halike rfl, fun _ _ hread => hread⟩

instance (why : Halt) : Blind (throw why : Eval α) :=
  ⟨fun _ _ _ halike => .error halike, fun _ _ hread => hread⟩

instance (x : Eval α) (f : α → Eval β) [hx : Blind x] [hf : ∀ a, Blind (f a)] :
    Blind (x >>= f) := by
  constructor
  · intro S w w' halike
    refine (hx.same S w w' halike).bind ?_
    rintro a b w₁ w₁' - - halike₁ rfl
    exact (hf a).same S w₁ w₁' halike₁
  · intro w name hread
    have hfirst := hx.unread w name
    rw [run_bind] at hread
    generalize x w = r at hread hfirst
    cases r with
    | ok a w₁ => exact hfirst ((hf a).unread w₁ name hread)
    | error why w₁ => exact hfirst hread

instance (p : Prop) [Decidable p] (x y : Eval α) [hx : Blind x] [hy : Blind y] :
    Blind (if p then x else y) := by
  split
  · exact hx
  · exact hy

theorem Blind.of_frontier {f : UInt32 → Eval α} (h : ∀ frontier, Blind (f frontier)) :
    Blind (get >>= fun w => f w.frontier) := by
  constructor
  · intro S w w' halike
    rw [run_bind_ok w (run_get w), run_bind_ok w' (run_get w'), halike.frontier]
    exact (h _).same S w w' halike
  · exact fun w => (h _).unread w

theorem Blind.of_fuel {f : Nat → Eval α} (h : ∀ fuel, Blind (f fuel)) :
    Blind (get >>= fun w => f w.fuel) := by
  constructor
  · intro S w w' halike
    rw [run_bind_ok w (run_get w), run_bind_ok w' (run_get w'), halike.fuel]
    exact (h _).same S w w' halike
  · exact fun w => (h _).unread w

theorem Blind.note {e : Event} (h : ∀ name, e ≠ .read name) : Blind (note e) := by
  constructor
  · exact fun _ _ _ halike => .ok (halike.history _ _) rfl
  · intro w name hread
    exact (List.mem_append.mp hread).resolve_right fun hlast =>
      h name (List.mem_singleton.mp hlast).symm

instance (array : Extent) : Blind (note (.made array)) := Blind.note (by simp)

instance (op : BinaryOp) (right : Expr) (left : UInt64) : Blind (note (.choice op right left)) :=
  Blind.note (by simp)

instance : Blind tick := by
  constructor
  · intro S w w' halike
    rw [run_tick, run_tick, halike.fuel]
    split
    · exact .error halike
    · exact .ok ⟨halike.vars, halike.memory, halike.frontier, halike.console, rfl⟩ rfl
  · intro w name
    rw [run_tick]
    split <;> exact id

instance (purpose : Purpose) (array : UInt32) (ty : ValType) (address : UInt32) :
    Blind (load purpose array ty address) := by
  constructor
  · intro S w w' halike
    rw [run_load, run_load, halike.memory]
    split
    · exact .ok (halike.history _ _) rfl
    · exact .error (halike.history _ _)
  · intro w name
    rw [run_load]
    split <;> simp [endWorld]

instance (purpose : Purpose) (array : UInt32) (ty : ValType) (address : UInt32) (value : UInt64) :
    Blind (store purpose array ty address value) := by
  constructor
  · intro S w w' halike
    rw [run_store, run_store, halike.memory]
    split
    · exact .ok ⟨halike.vars, rfl, halike.frontier, halike.console, halike.fuel⟩ rfl
    · exact .error (halike.history _ _)
  · intro w name
    rw [run_store]
    split <;> simp [endWorld]

instance (msg : Message) : Blind (report msg) := by
  constructor
  · intro S w w' halike
    rw [run_report, run_report, halike.memory, halike.console]
    by_cases h : w'.memory.size < msg.offset.toUInt32.toNat + msg.length.toUInt32.toNat
    · simp only [h, if_true]
      exact .error halike
    · simp only [h, if_false]
      exact .error ⟨halike.vars, rfl, halike.frontier, rfl, halike.fuel⟩
  · intro w name
    rw [run_report]
    dsimp only
    split <;> exact id

instance (ok : Bool) (msg : Message) : Blind (require ok msg) := by
  rw [require]
  infer_instance

instance (ty : Ty) (value : UInt64) : Blind (print ty value) := by
  constructor
  · intro S w w' halike
    rw [run_print, run_print, halike.console]
    exact .ok ⟨halike.vars, halike.memory, halike.frontier, rfl, halike.fuel⟩ rfl
  · exact fun _ _ hread => hread

instance : Blind input := by
  constructor
  · intro S w w' halike
    rcases h : w.console.input.readInt with ⟨answer, rest⟩
    have h' := h
    rw [halike.console] at h'
    cases answer with
    | ok value =>
        rw [run_input_ok w h, run_input_ok w' h', halike.console]
        exact .ok ⟨halike.vars, halike.memory, halike.frontier, rfl, halike.fuel⟩ rfl
    | error e =>
        rw [run_input_error w h, run_input_error w' h', halike.console]
        exact .error ⟨halike.vars, halike.memory, halike.frontier, rfl, halike.fuel⟩
  · intro w name
    rcases h : w.console.input.readInt with ⟨answer, rest⟩
    cases answer with
    | ok value =>
        rw [run_input_ok w h]
        exact id
    | error e =>
        rw [run_input_error w h]
        exact id

variable {t : Target}

instance (length : UInt64) (elem : Ty) : Blind (allocate t length elem) := by
  have hadvance (frontier : UInt32) :
      Blind (modify fun w => { w with frontier } : Eval Unit) :=
    ⟨fun _ _ _ halike => .ok ⟨halike.vars, halike.memory, rfl, halike.console, halike.fuel⟩ rfl,
      fun _ _ hread => hread⟩
  have := Blind.of_frontier (f := fun base => do
    store .make base .i32 base
      (Layout.encodeHeader length.toUInt32 (Layout.ElemKind.ofTy elem).code).toUInt64
    note (.made ⟨base, length.toUInt32, elem⟩)
    modify fun w => { w with frontier := pastArray base length.toUInt32 elem }
    return base) inferInstance
  rw [allocate]
  infer_instance

instance (base : UInt32) (elem : Ty) (position : Nat) (values : List UInt64) :
    Blind (storeElems base elem position values) := by
  induction values generalizing position with
  | nil =>
      rw [storeElems]
      infer_instance
  | cons v rest ih =>
      rw [storeElems]
      infer_instance

instance (elem : Ty) (values : List UInt64) : Blind (makeList t elem values) := by
  rw [makeList]
  infer_instance

instance (base : UInt32) (elem : Ty) (value : UInt64) (bound : Nat) (cursor : UInt32) :
    Blind (fillFrom base elem value bound cursor) := by
  induction bound generalizing cursor with
  | zero =>
      rw [fillFrom]
      infer_instance
  | succ bound ih =>
      have := Blind.of_frontier (f := fun frontier => do
        if cursor < frontier then
          store .make base (cellType elem) cursor value
          fillFrom base elem value bound (cursor + UInt32.ofNat (Layout.width elem)))
        inferInstance
      rw [fillFrom]
      infer_instance

instance (base : UInt32) (elem : Ty) (value : UInt64) (cursor : UInt32) :
    Blind (fillArray base elem value cursor) :=
  Blind.of_fuel (f := fun fuel => fillFrom base elem value fuel cursor) inferInstance

instance (elem : Ty) (length value : UInt64) : Blind (makeFill t elem length value) := by
  rw [makeFill]
  infer_instance

instance (purpose : Purpose) (array : UInt64) : Blind (lengthAt purpose array) := by
  rw [lengthAt]
  infer_instance

instance (purpose : Purpose) (elem : Ty) (array index : UInt64) :
    Blind (locate t purpose elem array index) := by
  unfold locate checkIndex
  infer_instance

instance (elem : Ty) (array index : UInt64) : Blind (readElem t elem array index) := by
  rw [readElem]
  infer_instance

instance (name : String) (args : List Expr) (values : List UInt64) :
    Blind (callValue name args values) := by
  unfold callValue
  split <;> infer_instance

/-! ## Expressions -/

/-- A property of computations that binds keep, and that holds of computations which look at no
variable and of reads of the variables in `S`. -/
structure Built (S : String → Prop) (P : (α : Type) → Eval α → Prop) : Prop where
  blind : ∀ {α : Type} (c : Eval α) [Blind c], P α c
  read : ∀ name, S name → P UInt64 (readVar name)
  bind : ∀ {α β : Type} {x : Eval α} {f : α → Eval β} [∀ a, Runs True True (f a)],
    P α x → (∀ a, P β (f a)) → P β (x >>= f)

variable {P : (α : Type) → Eval α → Prop}

theorem Built.evalExprs (hP : Built S P) {es : List Expr} (h : ∀ e ∈ es, P _ (evalExpr t e)) :
    P _ (evalExprs t es) := by
  induction es with
  | nil =>
      rw [Reference.evalExprs]
      exact hP.blind _
  | cons e rest ih =>
      obtain ⟨he, hrest⟩ := List.forall_mem_cons.mp h
      rw [Reference.evalExprs]
      exact hP.bind he fun v => hP.bind (ih hrest) fun vs => hP.blind _

/-- The property holds of the evaluation of every expression with variables in `S`. -/
theorem Built.evalExpr (hP : Built S P) {e : Expr} (h : ∀ x ∈ e.names, S x) :
    P _ (evalExpr t e) := by
  induction e with
  | missing | int | bool =>
      rw [Reference.evalExpr]
      exact hP.blind _
  | var ty name =>
      rw [Reference.evalExpr]
      exact hP.read name (h name (by simp [Expr.names]))
  | unary ty op x ih =>
      rw [Reference.evalExpr]
      exact hP.bind (ih h) fun v => hP.blind _
  | binary ty op l r ihl ihr =>
      simp only [Expr.names, List.mem_append] at h
      have hl := ihl fun x hx => h x (Or.inl hx)
      have hr := ihr fun x hx => h x (Or.inr hx)
      by_cases hand : op = .and
      · rw [hand, Reference.evalExpr]
        refine hP.bind hl fun x => hP.bind (hP.blind _) fun _ => ?_
        split
        · exact hr
        · exact hP.blind _
      · by_cases hor : op = .or
        · rw [hor, Reference.evalExpr]
          refine hP.bind hl fun x => hP.bind (hP.blind _) fun _ => ?_
          split
          · exact hP.blind _
          · exact hr
        · rw [evalExpr_strict t hand hor]
          exact hP.bind hl fun x => hP.bind hr fun y => hP.blind _
  | call ty name args ih =>
      have hargs := hP.evalExprs (t := t) fun a ha =>
        ih a ha fun x hx => h x (Expr.mem_listNames.mpr ⟨a, ha, hx⟩)
      rw [Reference.evalExpr]
      exact hP.bind hargs fun vs => hP.blind _
  | arrayLit ty elemTy elems ih =>
      have helems := hP.evalExprs (t := t) fun a ha =>
        ih a ha fun x hx => h x (Expr.mem_listNames.mpr ⟨a, ha, hx⟩)
      rw [Reference.evalExpr]
      exact hP.bind helems fun vs => hP.blind _
  | arrayFill ty n v ihn ihv =>
      simp only [Expr.names, List.mem_append] at h
      have hn := ihn fun x hx => h x (Or.inl hx)
      have hv := ihv fun x hx => h x (Or.inr hx)
      rw [Reference.evalExpr]
      exact hP.bind hn fun x => hP.bind hv fun y => hP.blind _
  | index ty a i iha ihi =>
      simp only [Expr.names, List.mem_append] at h
      have ha := iha fun x hx => h x (Or.inl hx)
      have hi := ihi fun x hx => h x (Or.inr hx)
      rw [Reference.evalExpr]
      exact hP.bind ha fun x => hP.bind hi fun y => hP.blind _

theorem built_mimics : Built S fun _ c => Mimics F S c c where
  blind c _ := Mimics.of_blind c
  read name hname _ _ halike _ := .ok (halike.history _ _) (halike.vars name hname)
  bind hx hf := hx.bind hf

/-- An expression does the same in worlds that agree on its variables. -/
theorem mimics_evalExpr {e : Expr} (h : ∀ x ∈ e.names, S x) :
    Mimics F S (evalExpr t e) (evalExpr t e) :=
  built_mimics.evalExpr h

theorem mimics_evalExprs {es : List Expr} (h : ∀ x ∈ Expr.listNames es, S x) :
    Mimics F S (evalExprs t es) (evalExprs t es) :=
  built_mimics.evalExprs fun _ he => mimics_evalExpr fun x hx =>
    h x (Expr.mem_listNames.mpr ⟨_, he, hx⟩)

theorem same_evalExpr {e : Expr} (h : ∀ x ∈ e.names, S x) (halike : Alike S w w') :
    Same S (evalExpr t e w) (evalExpr t e w') :=
  mimics_evalExpr (F := fun _ => True) h w w' halike fun _ _ => trivial

end

end ArrayLang.Reference
