import ArrayLang.Proofs.Emit.Exprs
import ArrayLang.Proofs.Machine.Reaches
import ArrayLang.Proofs.Reference.Passes

/-!
# Code for statements is correct

Executing the code of statements has the outcome of running them, and passes through a state that
agrees with the world at every boundary of statements.
-/

namespace ArrayLang.Reference

open Source Code Machine Emit Host Typing

variable {t : Target} {env : Env} {α : Type}

/-- A computation that ends well is executed to its end. -/
theorem Implements.exec {P : State Console → Prop} {Q : α → State Console → Prop} {code : Block}
    {x : Eval α} {s : State Console} {w w' : World} {a : α}
    (h : Implements t P code x Q) (hagree : Agree t w s) (hP : P s) (hx : x w = .ok a w') :
    ∃ s', execBlock linked code s = .next s' ∧ Agree t w' s' ∧ Q a s' := by
  have hfollows := h s w hagree hP
  rw [hx, observe] at hfollows
  generalize execBlock linked code s = outcome at hfollows ⊢
  cases hfollows with
  | ok hagree' _ hQ => exact ⟨_, rfl, hagree', hQ⟩

/-- A computation that halts is executed up to there. -/
theorem Implements.exec_error {P : State Console → Prop} {Q : α → State Console → Prop}
    {code : Block} {x : Eval α} {s : State Console} {w w' : World} {why : Halt}
    (h : Implements t P code x Q) (hagree : Agree t w s) (hP : P s) (hx : x w = .error why w') :
    ∃ s', execBlock linked code s = .halt why s' ∧ Agree t w' s' := by
  have hfollows := h s w hagree hP
  rw [hx, observe] at hfollows
  generalize execBlock linked code s = outcome at hfollows ⊢
  cases hfollows with
  | halt hagree' => exact ⟨_, rfl, hagree'⟩

/-- Code runs a statement. -/
structure RunsStmt (t : Target) (s : Stmt) (code : Block) : Prop where
  implements : ∀ st, Implements t (At Free st) code (runStmt t s) fun _ => At Free st
  reaches : ∀ m w left w', Agree t w m → Passes t [s] w left w' →
    ∃ m', Reaches linked code m m' ∧ Agree t w' m'

/-- Code runs statements. -/
structure RunsStmts (t : Target) (stmts : List Stmt) (code : Block) : Prop where
  implements : ∀ st, Implements t (At Free st) code (runStmts t stmts) fun _ => At Free st
  reaches : ∀ m w left w', Agree t w m → Passes t stmts w left w' →
    ∃ m', Reaches linked code m m' ∧ Agree t w' m'

theorem runsStmts_nil : RunsStmts t [] [] where
  implements st := by
    rw [runStmts]
    exact Implements.pure Turns.nil fun _ hs => hs
  reaches m w left w' hagree hpasses := by
    cases hpasses with
    | here => exact ⟨m, .here _ _, hagree⟩

theorem runsStmts_cons {s : Stmt} {rest : List Stmt} {first second : Block}
    (hs : RunsStmt t s first) (hrest : RunsStmts t rest second) :
    RunsStmts t (s :: rest) (first ++ second) where
  implements st := by
    rw [runStmts]
    exact Implements.bind (hs.implements st) fun _ => hrest.implements st
  reaches m w left w' hagree hpasses := by
    rcases hpasses.cons with ⟨left', hin⟩ | ⟨w₁, hrun, hafter⟩
    · obtain ⟨m', hreach, hagree'⟩ := hs.reaches m w left' w' hagree hin
      exact ⟨m', hreach.append_right second, hagree'⟩
    · obtain ⟨m₁, hexec, hagree₁, -⟩ := (hs.implements m.stack).exec hagree ⟨rfl, trivial⟩ hrun
      obtain ⟨m', hreach, hagree'⟩ := hrest.reaches m₁ w₁ left w' hagree₁ hafter
      exact ⟨m', .after hexec hreach, hagree'⟩

/-- The start and the end of a statement are reached. -/
theorem reaches_ends {s : Stmt} {code : Block} {m : State Console} {w w' : World}
    (h : ∀ st, Implements t (At Free st) code (runStmt t s) fun _ => At Free st)
    (hagree : Agree t w m) (hends : w' = w ∨ runStmt t s w = .ok () w') :
    ∃ m', Reaches linked code m m' ∧ Agree t w' m' := by
  rcases hends with rfl | hrun
  · exact ⟨m, .here _ _, hagree⟩
  · obtain ⟨m', hexec, hagree', -⟩ := (h m.stack).exec hagree ⟨rfl, trivial⟩ hrun
    have hreach : Reaches linked (code ++ []) m m' := .after hexec (.here _ _)
    rw [List.append_nil] at hreach
    exact ⟨m', hreach, hagree'⟩

theorem Passes.nil {left : List Stmt} {w w' : World} (h : Passes t [] w left w') : w' = w := by
  cases h with
  | here => rfl

/-- A statement without bodies has no boundaries inside. -/
theorem runsStmt_simple {s : Stmt} {code : Block}
    (h : ∀ st, Implements t (At Free st) code (runStmt t s) fun _ => At Free st)
    (hif : ∀ cond thenBody elseBody, s ≠ .ifElse cond thenBody elseBody)
    (hwhile : ∀ cond body, s ≠ .whileDo cond body) :
    RunsStmt t s code where
  implements := h
  reaches m w left w' hagree hpasses := by
    cases hpasses with
    | here => exact reaches_ends h hagree (Or.inl rfl)
    | after hrun hnil =>
        rw [hnil.nil]
        exact reaches_ends h hagree (Or.inr hrun)
    | inThen | inElse => exact absurd rfl (hif _ _ _)
    | inLoop => exact absurd rfl (hwhile _ _)

/-! ## Statements without bodies -/

theorem runsStmt_expr {x : Expr} {code : Block} (hx : Computes t x code) :
    RunsStmt t (.expr x) (if x.ty = .void then code else code ++ [.drop]) := by
  refine runsStmt_simple ?_ (by simp) (by simp)
  intro st
  rw [runStmt]
  by_cases hty : x.ty = .void
  · rw [if_pos hty]
    refine Implements.map (hx st) fun value m hm => ?_
    rw [pushed, if_pos hty] at hm
    exact hm
  · rw [if_neg hty]
    rw [computes_iff hty] at hx
    refine Implements.bind (hx st) fun value => Implements.pure ?_ fun _ hm => hm
    intro memory globals locals host fuel _
    rw [observe_drop, observe_nil]

theorem runsStmt_assign {name : String} {value : Expr} {code : Block}
    (hvalue : Computes t value code) (hty : value.ty ≠ .void) :
    RunsStmt t (.assign name value) (code ++ [.localSet name]) := by
  refine runsStmt_simple ?_ (by simp) (by simp)
  intro st
  rw [computes_iff hty] at hvalue
  rw [runStmt]
  refine Implements.bind (hvalue st) fun v => ?_
  rintro ⟨memory, globals, locals, stack, host, fuel⟩ w hagree ⟨hstack, -⟩
  subst hstack
  rw [observe_localSet, observe_nil, run_assignVar]
  refine .ok ⟨hagree.memory, ?_, hagree.frontier, hagree.console, hagree.fuel⟩ ?_ ⟨rfl, trivial⟩
  · intro other harray hcursor
    have hupdate : (Function.update w.vars name v) other =
        if other = name then v else w.vars other := Function.update_apply w.vars name v other
    rw [Slots.get_set]
    refine Eq.trans ?_ hupdate.symm
    split
    · rfl
    · exact hagree.vars other harray hcursor
  · simp [World.accesses, World.assign, Event.access?]

/-- The array, the index and the address of the element come before the value. -/
theorem runsStmt_indexAssign {array index value : Expr} {elem : Ty} {address code : Block}
    (harray : Plain array) (hindex : Plain index) (hty : array.ty = .array elem)
    (haddress : ∀ vars st, Implements t (At (Holds vars) st) address
      (locate t .write elem (atomValue vars array) (atomValue vars index))
      fun place => At (Holds vars) (place.toUInt64 :: st))
    (hvalue : Computes t value code) (helem : IsValue value.ty) :
    RunsStmt t (.indexAssign array index value) (address ++ code ++ [.store (cellType value.ty)]) := by
  refine runsStmt_simple ?_ (by simp) (by simp)
  intro st
  rw [computes_iff helem.ne_void] at hvalue
  refine Implements.of_reads (f := fun vars => do
    let place ← locate t .write elem (atomValue vars array) (atomValue vars index)
    let v ← evalExpr t value
    store .write (atomValue vars array).toUInt32 (cellType value.ty) place v)
    (array.names ++ index.names) ?_ ?_
  · intro w
    rw [runStmt, run_bind_ok w (evalExpr_atom t w harray.atomic),
      run_bind_ok _ (evalExpr_atom t _ hindex.atomic), World.reads_reads, hty]
    rfl
  · intro vars
    rw [List.append_assoc]
    refine Implements.bind (haddress vars st) fun place => ?_
    refine Implements.bind ((hvalue _).mono (fun _ hm => hm.free) fun _ _ hm => hm) fun v => ?_
    exact implements_store _ _ (size_cellType_ne_zero helem) (UInt32.toUInt32_toUInt64 _)

/-! ## Conditionals and loops -/

theorem implements_holds {cond : Expr} {code : Block} (hcond : Computes t cond code)
    (hty : cond.ty = .bool) (st : List UInt64) :
    Implements t (At Free st) code (holds t cond) fun b m =>
      ∃ v, truth v = b ∧ At Free (v :: st) m := by
  rw [computes_iff (by simp [hty])] at hcond
  exact Implements.map (hcond st) fun v _ hm => ⟨v, rfl, hm⟩

theorem truth_iff {v : UInt64} : truth v = true ↔ v.toUInt32 ≠ 0 := by
  simp [truth]

theorem truth_eq_false {v : UInt64} : truth v = false ↔ v.toUInt32 = 0 := by
  simp [truth]

theorem runsStmt_ifElse {cond : Expr} {thenBody elseBody : List Stmt}
    {code thenCode elseCode : Block} (hcond : Computes t cond code) (hty : cond.ty = .bool)
    (hthen : RunsStmts t thenBody thenCode) (helse : RunsStmts t elseBody elseCode) :
    RunsStmt t (.ifElse cond thenBody elseBody) (code ++ [.ifElse .none thenCode elseCode]) := by
  have himpl : ∀ st, Implements t (At Free st) (code ++ [.ifElse .none thenCode elseCode])
      (runStmt t (.ifElse cond thenBody elseBody)) fun _ => At Free st := by
    intro st
    rw [computes_iff (by simp [hty])] at hcond
    rw [runStmt, holds, bind_assoc]
    refine Implements.bind (hcond st) fun v => ?_
    rw [pure_bind]
    exact Implements.ifElse .none v (hthen.implements st) (helse.implements st)
  refine ⟨himpl, ?_⟩
  intro m w left w' hagree hpasses
  cases hpasses with
  | here => exact reaches_ends himpl hagree (Or.inl rfl)
  | after hrun hnil =>
      rw [hnil.nil]
      exact reaches_ends himpl hagree (Or.inr hrun)
  | inThen hholds hbody =>
      obtain ⟨m₁, hexec, hagree₁, v, hv, hm₁⟩ :=
        (implements_holds hcond hty m.stack).exec hagree ⟨rfl, trivial⟩ hholds
      obtain ⟨m', hreach, hagree'⟩ := hthen.reaches _ _ _ _ (hagree₁.setStack m.stack) hbody
      refine ⟨m', .after hexec (.inBranch hm₁.stack ?_), hagree'⟩
      rw [if_pos (truth_iff.mp hv)]
      exact hreach
  | inElse hholds hbody =>
      obtain ⟨m₁, hexec, hagree₁, v, hv, hm₁⟩ :=
        (implements_holds hcond hty m.stack).exec hagree ⟨rfl, trivial⟩ hholds
      obtain ⟨m', hreach, hagree'⟩ := helse.reaches _ _ _ _ (hagree₁.setStack m.stack) hbody
      refine ⟨m', .after hexec (.inBranch hm₁.stack ?_), hagree'⟩
      rw [if_neg (not_not.mpr (truth_eq_false.mp hv))]
      exact hreach

section While

variable {labels : LoopLabels} {cond : Expr} {body : List Stmt} {condCode bodyCode : Block}

theorem whileLoop_eq (labels : LoopLabels) (condCode bodyCode : Block) :
    whileLoop labels condCode bodyCode =
      .block labels.exit [.loop labels.start (iterationCode labels
        (condCode ++ [i32Const 0, .compare .i32 .eq]) bodyCode)] := by
  simp [whileLoop, iterationCode]

theorem implements_test (hcond : Computes t cond condCode) (hty : cond.ty = .bool)
    (st : List UInt64) :
    Implements t (At Free st) (condCode ++ [i32Const 0, .compare .i32 .eq]) (holds t cond)
      fun b m => ∃ v, truth v = !b ∧ At Free (v :: st) m := by
  rw [computes_iff (by simp [hty])] at hcond
  refine Implements.bind (hcond st) fun v => ?_
  have hnot : Turns Free (v :: st) [i32Const 0, .compare .i32 .eq]
      (ofBool (v.toUInt32 == 0) :: st) :=
    .step (turns_i32Const 0) (turns_compare rfl)
  refine Implements.pure hnot fun m hm => ⟨_, ?_, hm⟩
  rw [truth_ofBool, truth, bne, Bool.not_not]

theorem implements_whileDo (hlabels : labels.exit ≠ labels.start)
    (hcond : Computes t cond condCode) (hty : cond.ty = .bool)
    (hbody : RunsStmts t body bodyCode) (st : List UInt64) :
    Implements t (At Free st) [whileLoop labels condCode bodyCode]
      (runStmt t (.whileDo cond body)) fun _ => At Free st := by
  rw [whileLoop_eq, runStmt]
  refine Implements.mono (P := At Free st)
    (Implements.loop (I := fun _ : Unit => Free) (g := fun bound _ =>
      loop (holds t cond) (runStmts t body) bound) hlabels (fun _ => rfl) (fun _ _ => rfl)
      (fun _ => implements_test hcond hty st) (fun _ => hbody.implements st) ())
    (fun _ hm => hm) fun _ _ hm => hm.free

/-- The states in which an iteration starts agree with the worlds in which one starts. -/
theorem repeats_of_iterates {w w' : World} {m : State Console}
    (hcond : Computes t cond condCode) (hty : cond.ty = .bool)
    (hbody : RunsStmts t body bodyCode) (h : Iterates t cond body w w') (hagree : Agree t w m) :
    ∃ m', Repeats linked labels.start
      (iterationCode labels (condCode ++ [i32Const 0, .compare .i32 .eq]) bodyCode) m m' ∧
      Agree t w' m' := by
  induction h generalizing m with
  | refl => exact ⟨m, .refl m, hagree⟩
  | step hfuel hholds hrun _ ih =>
      obtain ⟨m₁, htest, hagree₁, v, hv, hm₁⟩ := (implements_test hcond hty m.stack).exec
        (hagree.setFuel (m.fuel - 1)) ⟨rfl, trivial⟩ (by rw [hagree.fuel]; exact hholds)
      obtain ⟨m₂, hexec, hagree₂, -⟩ := (hbody.implements m.stack).exec
        (hagree₁.setStack m.stack) ⟨rfl, trivial⟩ hrun
      obtain ⟨m', hrepeats, hagree'⟩ := ih hagree₂
      refine ⟨m', .step (by rw [hagree.fuel]; exact hfuel) ?_ hrepeats, hagree'⟩
      rw [iterationCode, execBlock_append htest, execBlock_branchIf hm₁.stack (truth_eq_false.mp hv),
        execBlock_append hexec]
      exact congrArg Prod.fst (observe_branch linked [] labels.start m₂)

theorem runsStmt_whileDo (hlabels : labels.exit ≠ labels.start)
    (hcond : Computes t cond condCode) (hty : cond.ty = .bool)
    (hbody : RunsStmts t body bodyCode) :
    RunsStmt t (.whileDo cond body) [whileLoop labels condCode bodyCode] := by
  have himpl := implements_whileDo hlabels hcond hty hbody
  refine ⟨himpl, ?_⟩
  intro m w left w' hagree hpasses
  cases hpasses with
  | here => exact reaches_ends himpl hagree (Or.inl rfl)
  | after hrun hnil =>
      rw [hnil.nil]
      exact reaches_ends himpl hagree (Or.inr hrun)
  | inLoop hiterates hfuel hholds hpasses =>
      obtain ⟨m₁, hrepeats, hagree₁⟩ := repeats_of_iterates hcond hty hbody hiterates hagree
      obtain ⟨m₂, htest, hagree₂, v, hv, hm₂⟩ := (implements_test hcond hty m₁.stack).exec
        (hagree₁.setFuel (m₁.fuel - 1)) ⟨rfl, trivial⟩ (by rw [hagree₁.fuel]; exact hholds)
      obtain ⟨m', hreach, hagree'⟩ :=
        hbody.reaches _ _ _ _ (hagree₂.setStack m₁.stack) hpasses
      have hskip : execBlock linked [.branchIf labels.exit] m₂ =
          .next { m₂ with stack := m₁.stack } :=
        execBlock_branchIf hm₂.stack (truth_eq_false.mp hv) []
      rw [whileLoop_eq]
      refine ⟨m', .inBlock (.inLoop hrepeats (by rw [hagree₁.fuel]; exact hfuel) ?_), hagree'⟩
      exact .after htest (.after hskip (hreach.append_right _))

end While

/-! ## All statements -/

theorem emitted_stmts {stmts : List Stmt}
    (h : ∀ s ∈ stmts, Emitted (stmt t s) (RunsStmt t s)) :
    Emitted (Emit.stmts t stmts) (RunsStmts t stmts) := by
  induction stmts with
  | nil =>
      rw [Emit.stmts]
      exact Emitted.pure runsStmts_nil
  | cons s rest ih =>
      obtain ⟨hs, hrest⟩ := List.forall_mem_cons.mp h
      rw [Emit.stmts]
      refine hs.bind fun first hfirst => (ih hrest).bind fun second hsecond => ?_
      exact Emitted.pure (runsStmts_cons hfirst hsecond)

theorem NoScratch.of_mem_stmts {stmts : List Stmt} (h : NoScratch (Stmt.listNames stmts))
    {s : Stmt} (hs : s ∈ stmts) : NoScratch s.names :=
  ⟨fun hmem => h.1 (Stmt.mem_listNames.mpr ⟨s, hs, hmem⟩),
    fun hmem => h.2 (Stmt.mem_listNames.mpr ⟨s, hs, hmem⟩)⟩

/-- Code generation succeeds for a well-typed statement in normal form, and its code runs the
statement. -/
theorem emitted_stmt {s : Stmt} (hloop : t.tier.admits .loop = true)
    (hmax : t.tier.admits .array = true → 0 < t.maxArrayBytes)
    (h : StmtTyped t.tier env s) (hnormal : s.isNormal = true) (hnames : NoScratch s.names) :
    Emitted (stmt t s) (RunsStmt t s) := by
  induction h with
  | expr hx =>
      rw [stmt]
      refine (emitted_requireTier _ hloop).bind fun _ _ => ?_
      refine (emitted_expr hmax hx hnormal hnames).bind fun code hcode => ?_
      exact Emitted.pure (runsStmt_expr hcode)
  | assign hfind hvalue hx =>
      have hnames' : NoScratch ([_] ++ _) := hnames
      obtain ⟨-, hsx⟩ := noScratch_append.mp hnames'
      rw [stmt]
      refine (emitted_requireTier _ hloop).bind fun _ _ => ?_
      refine (emitted_expr hmax hx hnormal hsx).bind fun code hcode => ?_
      exact Emitted.pure (runsStmt_assign hcode (hx.ty_eq ▸ hvalue.ne_void))
  | indexAssign harray ha hi hv =>
      obtain ⟨hatoms, hnv⟩ := Bool.and_eq_true_iff.mp hnormal
      obtain ⟨haa, hai⟩ := Bool.and_eq_true_iff.mp hatoms
      obtain ⟨hsai, hsv⟩ := noScratch_append.mp hnames
      obtain ⟨hsa, hsi⟩ := noScratch_append.mp hsai
      have helem := ha.elem_isValue
      rw [stmt]
      refine (emitted_requireTier _ harray).bind fun _ _ => ?_
      rw [elementWrite]
      refine (emitted_elementRef .write ha hi ⟨haa, hsa⟩ ⟨hai, hsi⟩).bind ?_
      rintro ⟨address, _⟩ ⟨rfl, haddress⟩
      refine (emitted_expr hmax hv hnv hsv).bind fun code hcode => ?_
      rw [hv.ty_eq]
      refine (emitted_representation _ helem).bind ?_
      rintro _ rfl
      have hne : cellType _ ≠ .none := fun h => size_cellType_ne_zero helem (by rw [h]; rfl)
      rw [if_neg hne]
      refine Emitted.pure ?_
      rw [← hv.ty_eq]
      exact runsStmt_indexAssign ⟨haa, hsa⟩ ⟨hai, hsi⟩ ha.ty_eq haddress hcode (hv.ty_eq ▸ helem)
  | ifElse hcond hthen helse ihthen ihelse =>
      obtain ⟨hbodies, hne⟩ := Bool.and_eq_true_iff.mp hnormal
      obtain ⟨hnc, hnt⟩ := Bool.and_eq_true_iff.mp hbodies
      obtain ⟨hsct, hse⟩ := noScratch_append.mp hnames
      obtain ⟨hsc, hst⟩ := noScratch_append.mp hsct
      rw [Stmt.listNormal_iff] at hnt hne
      rw [stmt]
      refine (emitted_requireTier _ hloop).bind fun _ _ => ?_
      refine (emitted_expr hmax hcond hnc hsc).bind fun code hcode => ?_
      refine (emitted_stmts fun s hs => ihthen s hs (hnt s hs) (hst.of_mem_stmts hs)).bind ?_
      intro thenCode hthenCode
      refine (emitted_stmts fun s hs => ihelse s hs (hne s hs) (hse.of_mem_stmts hs)).bind ?_
      intro elseCode helseCode
      exact Emitted.pure (runsStmt_ifElse hcode hcond.ty_eq hthenCode helseCode)
  | whileDo hcond hbody ih =>
      obtain ⟨hnc, hnb⟩ := Bool.and_eq_true_iff.mp hnormal
      obtain ⟨hsc, hsb⟩ := noScratch_append.mp hnames
      rw [Stmt.listNormal_iff] at hnb
      rw [stmt]
      refine (emitted_requireTier _ hloop).bind fun _ _ => ?_
      refine (emitted_freshLabels "while").bind fun labels hlabels => ?_
      refine (emitted_expr hmax hcond hnc hsc).bind fun code hcode => ?_
      refine (emitted_stmts fun s hs => ih s hs (hnb s hs) (hsb.of_mem_stmts hs)).bind ?_
      intro bodyCode hbodyCode
      exact Emitted.pure (runsStmt_whileDo hlabels hcode hcond.ty_eq hbodyCode)

end ArrayLang.Reference
