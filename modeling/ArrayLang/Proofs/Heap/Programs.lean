import ArrayLang.Proofs.Heap.Making
import ArrayLang.Proofs.Reference.Passes

/-!
# Programs keep the heap typed

Well-typed expressions and statements are sound: the heap stays typed as long as nothing leads
astray, and their values are as their types say.
-/

namespace ArrayLang.Reference

open Source Code Machine Emit Typing

variable {R : Regime} {tier : Tier} {w : World}

/-! ## Expressions -/

/-- An expression is sound and its values are of a type. -/
def SoundExpr (R : Regime) (e : Expr) (ty : Ty) : Prop :=
  ∀ w, TypedHeap R Extent.count w →
    Sound R (evalExpr R.target e) w fun v w' =>
      TypedHeap R Extent.count w' ∧ Proper R.nulls w'.arrays ty v

theorem sound_evalExprs {es : List Expr} {ty : Ty} (hes : ∀ e ∈ es, SoundExpr R e ty)
    (h : TypedHeap R Extent.count w) :
    Sound R (evalExprs R.target es) w fun vs w' =>
      TypedHeap R Extent.count w' ∧ vs.length = es.length ∧
        ∀ v ∈ vs, Proper R.nulls w'.arrays ty v := by
  induction es generalizing w with
  | nil =>
      rw [evalExprs]
      exact Sound.pure ⟨h, rfl, by simp⟩
  | cons e rest ih =>
      obtain ⟨he, hrest⟩ := List.forall_mem_cons.mp hes
      rw [evalExprs]
      refine Sound.bind (he w h) ?_
      rintro v w₁ - ⟨h₁, hv⟩
      refine Sound.bind (ih hrest h₁) ?_
      rintro vs w₂ hrun ⟨h₂, hlength, hvs⟩
      refine Sound.pure ⟨h₂, by rw [List.length_cons, List.length_cons, hlength], ?_⟩
      exact List.forall_mem_cons.mpr ⟨hv.mono (arrays_subset hrun), hvs⟩

theorem SoundExpr.operand {x : Expr} {ty ty' : Ty} {f : UInt64 → UInt64} (hx : SoundExpr R x ty)
    (hf : ∀ v arrays, Proper R.nulls arrays ty' (f v)) (h : TypedHeap R Extent.count w) :
    Sound R (do return f (← evalExpr R.target x)) w fun v w' =>
      TypedHeap R Extent.count w' ∧ Proper R.nulls w'.arrays ty' v := by
  refine Sound.bind (hx w h) ?_
  rintro v w₁ - ⟨h₁, -⟩
  exact Sound.pure ⟨h₁, hf v w₁.arrays⟩

/-- An operator whose result is always of its type. -/
theorem SoundExpr.strict {ty ty₁ ty₂ : Ty} {op : BinaryOp} {left right : Expr}
    (hop : op ∉ [.and, .or]) (hleft : SoundExpr R left ty₁) (hright : SoundExpr R right ty₂)
    (hvalue : ∀ x y arrays, Proper R.nulls arrays ty (binaryValue op left.ty x y)) :
    SoundExpr R (.binary ty op left right) ty := by
  intro w h
  simp only [List.mem_cons, List.not_mem_nil, or_false, not_or] at hop
  rw [evalExpr_strict R.target hop.1 hop.2]
  refine Sound.bind (hleft w h) ?_
  rintro x w₁ - ⟨h₁, -⟩
  exact hright.operand (hvalue x) h₁

/-- A comparison. -/
theorem SoundExpr.compare {ty₁ ty₂ : Ty} {op : BinaryOp} {left right : Expr}
    (hop : op ∈ [.lt, .le, .gt, .ge, .eq, .ne, .is]) (hleft : SoundExpr R left ty₁)
    (hright : SoundExpr R right ty₂) : SoundExpr R (.binary .bool op left right) .bool := by
  refine hleft.strict ?_ hright fun x y arrays => ?_
  · intro hlogic
    simp only [List.mem_cons, List.not_mem_nil, or_false] at hlogic
    rcases hlogic with rfl | rfl <;> simp at hop
  · simp only [List.mem_cons, List.not_mem_nil, or_false] at hop
    rcases hop with rfl | rfl | rfl | rfl | rfl | rfl | rfl <;> exact proper_ofBool _

theorem SoundExpr.logic {op : BinaryOp} {left right : Expr} (hop : op ∈ [.and, .or])
    (hleft : SoundExpr R left .bool) (hright : SoundExpr R right .bool) :
    SoundExpr R (.binary .bool op left right) .bool := by
  intro w h
  simp only [List.mem_cons, List.not_mem_nil, or_false] at hop
  rcases hop with rfl | rfl
  · rw [evalExpr]
    refine Sound.bind (hleft w h) ?_
    rintro x w₁ - ⟨h₁, -⟩
    refine Sound.bind (sound_choice h₁ _ right x) ?_
    rintro - w₂ - h₂
    exact Sound.ifElse (fun _ => hright w₂ h₂) fun _ => Sound.pure ⟨h₂, Or.inl rfl⟩
  · rw [evalExpr]
    refine Sound.bind (hleft w h) ?_
    rintro x w₁ - ⟨h₁, -⟩
    refine Sound.bind (sound_choice h₁ _ right x) ?_
    rintro - w₂ - h₂
    exact Sound.ifElse (fun _ => Sound.pure ⟨h₂, Or.inr rfl⟩) fun _ => hright w₂ h₂

/-- A well-typed expression is sound. -/
theorem soundExpr_of_hasType {e : Expr} {ty : Ty} (htyped : HasType tier R.env e ty)
    (hcount : Countable e.lengths) : SoundExpr R e ty := by
  induction htyped with
  | int =>
      intro w h
      rw [evalExpr]
      exact Sound.pure ⟨h, trivial⟩
  | bool =>
      intro w h
      rw [evalExpr]
      exact Sound.pure ⟨h, proper_ofBool _⟩
  | var _ hfind _ =>
      intro w h
      rw [evalExpr]
      exact sound_readVar h hfind
  | neg _ ih =>
      intro w h
      rw [evalExpr]
      exact (ih hcount).operand (fun _ _ => trivial) h
  | not _ ih =>
      intro w h
      rw [evalExpr]
      exact (ih hcount).operand (fun _ _ => proper_ofBool _) h
  | @arith op _ _ hop _ _ ihl ihr =>
      obtain ⟨hl, hr⟩ := countable_append.mp hcount
      refine (ihl hl).strict ?_ (ihr hr) fun _ _ _ => trivial
      revert op
      simp
  | order hop _ _ ihl ihr =>
      obtain ⟨hl, hr⟩ := countable_append.mp hcount
      have hmem := List.mem_append_left [BinaryOp.eq, .ne, .is] hop
      exact (ihl hl).compare hmem (ihr hr)
  | equality hop _ _ _ ihl ihr =>
      obtain ⟨hl, hr⟩ := countable_append.mp hcount
      have hmem := List.mem_append_right [BinaryOp.lt, .le, .gt, .ge]
        (List.mem_append_left [.is] hop)
      exact (ihl hl).compare hmem (ihr hr)
  | logic hop _ _ ihl ihr =>
      obtain ⟨hl, hr⟩ := countable_append.mp hcount
      exact (ihl hl).logic hop (ihr hr)
  | identity _ _ ihl ihr =>
      obtain ⟨hl, hr⟩ := countable_append.mp hcount
      exact (ihl hl).compare (by simp) (ihr hr)
  | print _ _ ih =>
      intro w h
      have hx := ih (countable_append.mp hcount).1
      rw [evalExpr, evalExprs_singleton, bind_assoc]
      refine Sound.bind (hx w h) ?_
      rintro v w₁ - ⟨h₁, -⟩
      rw [pure_bind, callValue_print]
      refine Sound.bind (sound_print h₁ _ v) ?_
      rintro - w₂ - h₂
      exact Sound.pure ⟨h₂, trivial⟩
  | input =>
      intro w h
      rw [evalExpr, evalExprs, pure_bind, callValue_input]
      exact (sound_input h).mono fun _ _ _ h' => ⟨h', trivial⟩
  | len _ _ ih =>
      intro w h
      have hx := ih (countable_append.mp hcount).1
      rw [evalExpr, evalExprs_singleton, bind_assoc]
      refine Sound.bind (hx w h) ?_
      rintro v w₁ - ⟨h₁, hv⟩
      rw [pure_bind, callValue_len]
      refine Sound.bind (sound_lengthAt h₁ (by simp) hv) ?_
      rintro n w₂ - ⟨h₂, -⟩
      exact Sound.pure ⟨h₂, trivial⟩
  | arrayLit _ helem _ _ ih =>
      intro w h
      obtain ⟨hlength, helems⟩ := List.forall_mem_cons.mp hcount
      rw [evalExpr]
      refine Sound.bind (sound_evalExprs (fun e he => ih e he (Countable.of_mem_exprs helems he)) h) ?_
      rintro vs w₁ - ⟨h₁, hvs, hvalues⟩
      exact sound_makeList h₁ helem (hvs ▸ hlength) hvalues
  | arrayFill _ helem _ _ ihl ihf =>
      intro w h
      obtain ⟨hl, hf⟩ := countable_append.mp hcount
      rw [evalExpr]
      refine Sound.bind (ihl hl w h) ?_
      rintro n w₁ - ⟨h₁, -⟩
      refine Sound.bind (ihf hf w₁ h₁) ?_
      rintro v w₂ - ⟨h₂, hv⟩
      exact sound_makeFill h₂ helem hv
  | index _ ha _ iha ihi =>
      intro w h
      obtain ⟨hca, hci⟩ := countable_append.mp hcount
      rw [evalExpr, ha.ty_eq]
      refine Sound.bind (iha hca w h) ?_
      rintro a w₁ - ⟨h₁, harray⟩
      refine Sound.bind (ihi hci w₁ h₁) ?_
      rintro i w₂ hrun ⟨h₂, -⟩
      exact sound_readElem h₂ (harray.mono (arrays_subset hrun))

/-! ## Statements -/

theorem sound_holds {cond : Expr} (hcond : SoundExpr R cond .bool)
    (h : TypedHeap R Extent.count w) :
    Sound R (holds R.target cond) w fun _ w' => TypedHeap R Extent.count w' := by
  rw [holds]
  refine Sound.bind (hcond w h) ?_
  rintro v w₁ - ⟨h₁, -⟩
  exact Sound.pure h₁

/-- Statements are sound. -/
def SoundStmts (R : Regime) (c : Eval Unit) : Prop :=
  ∀ w, TypedHeap R Extent.count w → Sound R c w fun _ w' => TypedHeap R Extent.count w'

theorem sound_loop {cond : Eval Bool} {body : Eval Unit} [Runs True True cond]
    [Runs True True body]
    (hcond : ∀ w, TypedHeap R Extent.count w →
      Sound R cond w fun _ w' => TypedHeap R Extent.count w')
    (hbody : SoundStmts R body) (bound : Nat) : SoundStmts R (loop cond body bound) := by
  induction bound with
  | zero => exact fun w h => Sound.throw (h.halts (by simp))
  | succ bound ih =>
      intro w h
      rw [loop_add_one]
      refine Sound.bind (sound_tick h) ?_
      rintro - w₁ - ⟨h₁, -⟩
      refine Sound.bind (hcond w₁ h₁) ?_
      rintro b w₂ - h₂
      refine Sound.ifElse (fun _ => ?_) fun _ => Sound.pure h₂
      refine Sound.bind (hbody w₂ h₂) ?_
      rintro - w₃ - h₃
      exact ih w₃ h₃

theorem soundStmts_of_mem {stmts : List Stmt}
    (h : ∀ s ∈ stmts, SoundStmts R (runStmt R.target s)) :
    SoundStmts R (runStmts R.target stmts) := by
  induction stmts with
  | nil =>
      intro w hw
      rw [runStmts]
      exact Sound.pure hw
  | cons s rest ih =>
      obtain ⟨hs, hrest⟩ := List.forall_mem_cons.mp h
      intro w hw
      rw [runStmts]
      refine Sound.bind (hs w hw) ?_
      rintro - w₁ - hw₁
      exact ih hrest w₁ hw₁

/-- A well-typed statement is sound. -/
theorem soundStmt_of_typed {s : Stmt} (htyped : StmtTyped tier R.env s)
    (hcount : Countable s.lengths) : SoundStmts R (runStmt R.target s) := by
  induction htyped with
  | expr hx =>
      intro w h
      rw [runStmt]
      refine Sound.bind (soundExpr_of_hasType hx hcount w h) ?_
      rintro - w₁ - ⟨h₁, -⟩
      exact Sound.pure h₁
  | assign hfind _ hv =>
      intro w h
      rw [runStmt]
      refine Sound.bind (soundExpr_of_hasType hv hcount w h) ?_
      rintro v w₁ - ⟨h₁, hvalue⟩
      exact sound_assignVar h₁ hfind hvalue
  | indexAssign _ ha hi hv =>
      intro w h
      obtain ⟨hplace, hcv⟩ := countable_append.mp hcount
      obtain ⟨hca, hci⟩ := countable_append.mp hplace
      rw [runStmt, ha.ty_eq, hv.ty_eq]
      refine Sound.bind (soundExpr_of_hasType ha hca w h) ?_
      rintro a w₁ - ⟨h₁, harray⟩
      refine Sound.bind (soundExpr_of_hasType hi hci w₁ h₁) ?_
      rintro i w₂ hrun₂ ⟨h₂, -⟩
      refine Sound.bind (sound_locate h₂ (by simp) (harray.mono (arrays_subset hrun₂))) ?_
      rintro address w₃ - ⟨h₃, hcell⟩
      refine Sound.bind (soundExpr_of_hasType hv hcv w₃ h₃) ?_
      rintro v w₄ hrun₄ ⟨h₄, hvalue⟩
      exact sound_store h₄ (hcell.mono (arrays_subset hrun₄)) hvalue
  | ifElse hcond _ _ ihthen ihelse =>
      intro w h
      obtain ⟨hparts, helse⟩ := countable_append.mp hcount
      obtain ⟨hc, hthen⟩ := countable_append.mp hparts
      rw [runStmt]
      refine Sound.bind (sound_holds (soundExpr_of_hasType hcond hc) h) ?_
      rintro b w₁ - h₁
      refine Sound.ifElse (fun _ => ?_) fun _ => ?_
      · exact soundStmts_of_mem (fun s hs => ihthen s hs (hthen.of_mem_stmts hs)) w₁ h₁
      · exact soundStmts_of_mem (fun s hs => ihelse s hs (helse.of_mem_stmts hs)) w₁ h₁
  | @whileDo cond body hcond _ ih =>
      intro w h
      obtain ⟨hc, hbody⟩ := countable_append.mp hcount
      have hloop := sound_loop (fun w h => sound_holds (soundExpr_of_hasType hcond hc) h)
        (soundStmts_of_mem fun s hs => ih s hs (hbody.of_mem_stmts hs)) w.fuel w h
      exact hloop

/-- A well-typed program is sound. -/
theorem soundStmts_of_typed {stmts : List Stmt} (htyped : ∀ s ∈ stmts, StmtTyped tier R.env s)
    (hcount : Countable (Stmt.listLengths stmts)) : SoundStmts R (runStmts R.target stmts) :=
  soundStmts_of_mem fun s hs => soundStmt_of_typed (htyped s hs) (hcount.of_mem_stmts hs)

/-! ## Boundaries -/

section

variable {α : Type} {t : Target} {w' : World}

theorem Sound.of_ok {c : Eval α} {a : α} {Q : α → World → Prop} (h : Sound R c w Q)
    (hrun : c w = .ok a w') (hcareful : Careful R w'.history) : Q a w' := by
  rw [Sound, hrun] at h
  cases h hcareful with
  | ok ha => exact ha

theorem Iterates.typedHeap {cond : Expr} {body : List Stmt}
    (hiter : Iterates R.target cond body w w') (hcond : SoundExpr R cond .bool)
    (hbody : SoundStmts R (runStmts R.target body)) (h : TypedHeap R Extent.count w)
    (hcareful : Careful R w'.history) : TypedHeap R Extent.count w' := by
  induction hiter with
  | refl => exact h
  | step _ hrun hrun' hrest ih =>
      have hcareful₂ := hcareful.of_prefix hrest.history_grows
      have hcareful₁ := hcareful₂.of_prefix (history_grows_of_ok hrun')
      have h₁ := (sound_holds hcond (h.fuel _)).of_ok hrun hcareful₁
      exact ih ((hbody _ h₁).of_ok hrun' hcareful₂) hcareful

/-- The heap is typed at every boundary of statements. -/
theorem Passes.typedHeap {stmts left : List Stmt} (hpasses : Passes R.target stmts w left w')
    (htyped : ∀ s ∈ stmts, StmtTyped tier R.env s) (hcount : Countable (Stmt.listLengths stmts))
    (h : TypedHeap R Extent.count w) (hcareful : Careful R w'.history) :
    TypedHeap R Extent.count w' := by
  induction hpasses with
  | here => exact h
  | after hrun hrest ih =>
      obtain ⟨hs, hstmts⟩ := List.forall_mem_cons.mp htyped
      obtain ⟨hcs, hcrest⟩ := countable_append.mp hcount
      have hcareful₁ := hcareful.of_prefix hrest.history_grows
      exact ih hstmts hcrest ((soundStmt_of_typed hs hcs _ h).of_ok hrun hcareful₁) hcareful
  | inThen hrun hbody ih =>
      cases htyped _ List.mem_cons_self with
      | ifElse hcond hthen _ =>
          obtain ⟨hcparts, -⟩ := countable_append.mp (countable_append.mp hcount).1
          obtain ⟨hccond, hcthen⟩ := countable_append.mp hcparts
          have hcareful₁ := hcareful.of_prefix hbody.history_grows
          have h₁ := (sound_holds (soundExpr_of_hasType hcond hccond) h).of_ok hrun hcareful₁
          exact ih hthen hcthen h₁ hcareful
  | inElse hrun hbody ih =>
      cases htyped _ List.mem_cons_self with
      | ifElse hcond _ helse =>
          obtain ⟨hcparts, hcelse⟩ := countable_append.mp (countable_append.mp hcount).1
          have hccond := (countable_append.mp hcparts).1
          have hcareful₁ := hcareful.of_prefix hbody.history_grows
          have h₁ := (sound_holds (soundExpr_of_hasType hcond hccond) h).of_ok hrun hcareful₁
          exact ih helse hcelse h₁ hcareful
  | inLoop hiter _ hrun hbody ih =>
      cases htyped _ List.mem_cons_self with
      | whileDo hcond hbodyTyped =>
          obtain ⟨hccond, hcbody⟩ := countable_append.mp (countable_append.mp hcount).1
          have hsound := soundExpr_of_hasType hcond hccond
          have hcareful₂ := hcareful.of_prefix hbody.history_grows
          have hcareful₁ := hcareful₂.of_prefix (history_grows_of_ok hrun)
          have h₁ := hiter.typedHeap hsound (soundStmts_of_typed hbodyTyped hcbody) h hcareful₁
          exact ih hbodyTyped hcbody ((sound_holds hsound (h₁.fuel _)).of_ok hrun hcareful₂)
            hcareful

end

end ArrayLang.Reference
