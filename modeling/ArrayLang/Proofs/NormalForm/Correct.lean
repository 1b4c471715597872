import ArrayLang.Assembly
import ArrayLang.Proofs.NormalForm.Meaning
import ArrayLang.Proofs.Reference.Tracks

/-!
# Normal forms keep the meaning of programs

A program and its normal form do the same, if every value that is stored in an array is in normal
form.  Two things need care.  A condition of a loop that is moved in front of the loop is evaluated
before fuel is taken, which shows when a run halts at its test.  And an operand of `and` or `or`
that goes through a temporary is not made 0 or 1, which shows when it is the value of the operation.
-/

namespace ArrayLang.NormalForm

open Source Typing Emit Machine Reference

variable {t : Target} {T T' : Temps} {stmts out first : List Stmt}

section

variable {F : Event → Prop} {S : String → Prop}

theorem mimics_assignVar (name : String) (value : UInt64) :
    Mimics F S (assignVar name value) (assignVar name value) :=
  fun _ _ halike _ => .ok (halike.assign name value) rfl

theorem mimics_holds {c c' : Expr}
    (h : Mimics F S (evalExpr t c) (do runStmts t first; evalExpr t c')) :
    Mimics F S (holds t c) (do runStmts t first; holds t c') := by
  rw [holds, holds, ← bind_assoc]
  exact h.bind fun v => Mimics.pure _

/-- Store a value at an array and an index. -/
def storeAt (t : Target) (elem : Ty) (value : Expr) (place : List UInt64) : Eval Unit :=
  match place with
  | [array, index] => do
    let address ← locate t .write elem array index
    let v ← evalExpr t value
    store .write array.toUInt32 (cellType value.ty) address v
  | _ => return ()

instance (elem : Ty) (value : Expr) (place : List UInt64) :
    Runs True True (storeAt t elem value place) := by
  unfold storeAt
  split <;> infer_instance

theorem runStmt_indexAssign (a i v : Expr) :
    runStmt t (.indexAssign a i v) =
      (do storeAt t (elemOf a.ty) v (← evalExprs t [a, i])) := by
  simp [runStmt, evalExprs, storeAt]

theorem mimics_storeAt {elem : Ty} {value : Expr} (place : List UInt64)
    (h : ∀ x ∈ value.names, S x) :
    Mimics F S (storeAt t elem value place) (storeAt t elem value place) := by
  unfold storeAt
  split
  · refine (Mimics.of_blind _).bind fun address => (mimics_evalExpr h).bind fun v => ?_
    exact Mimics.of_blind _
  · exact Mimics.pure ()

/-- A condition that was kept in a temporary. -/
theorem matches_test {temp : String} {c c' : Expr} {w w' : World}
    (h : Mimics F S (evalExpr t c) (do runStmts t first; evalExpr t c')) (htemp : ¬S temp)
    (halike : Alike S w w') (hfair : Throughout F (holds t c w)) :
    Matches S (fun b _ w₁ => truth (w₁.vars temp) = b) (holds t c w)
      (runStmts t (first ++ [.assign temp c']) w') := by
  rw [runStmts_append, runStmts_singleton, runStmt, holds, ← bind_assoc]
  refine (h w w' halike (Throughout.of_bind hfair)).bind ?_
  rintro v _ w₁ w₁' - - halike₁ rfl
  rw [run_assignVar, run_pure]
  refine .ok (halike₁.assign_right htemp v) ?_
  rw [World.vars_assign, Function.update_self]

theorem simulates_cons_of_mimics {s : Stmt} {head rest : List Stmt}
    (hs : Mimics F S (runStmt t s) (runStmts t head)) (hrest : Simulates F S t rest out) :
    Simulates F S t (s :: rest) (head ++ out) :=
  simulates_cons (fun w w' halike hfair => .same (hs w w' halike hfair)) hrest

/-- A conditional whose condition needs statements. -/
theorem tracks_ifElse {c c' : Expr} {thenBody thenBody' elseBody elseBody' rest : List Stmt}
    {w w' : World} (hc : Mimics F S (evalExpr t c) (do runStmts t first; evalExpr t c'))
    (hthen : Simulates F S t thenBody thenBody') (helse : Simulates F S t elseBody elseBody')
    (halike : Alike S w w') (hfair : Throughout F (runStmt t (.ifElse c thenBody elseBody) w)) :
    Tracks S (HaltsAtTest F S t (.ifElse c thenBody elseBody :: rest) w)
      (runStmt t (.ifElse c thenBody elseBody) w)
      (runStmts t (first ++ [.ifElse c' thenBody' elseBody']) w') := by
  rw [runStmt] at hfair ⊢
  rw [runStmts_append, runStmts_singleton, runStmt, ← bind_assoc]
  refine Tracks.bind hfair (fun hfair => .same (mimics_holds hc w w' halike hfair)) ?_
  intro b w₁ w₁' hrun halike₁ hfair₁
  cases b with
  | true =>
      refine (hthen w₁ w₁' halike₁ hfair₁).mono fun _ _ _ _ hhalt => hhalt.of_passes ?_
      exact fun _ _ => .inThen hrun
  | false =>
      refine (helse w₁ w₁' halike₁ hfair₁).mono fun _ _ _ _ hhalt => hhalt.of_passes ?_
      exact fun _ _ => .inElse hrun

end

section

variable {tier : Tier} {vars : Env}

theorem Prepares.mimics_single {e x : Expr} {ty : Ty} (h : Prepares T [e] first [x] T')
    (hvars : EnvOk vars) (hT : T.Ordered) (he : HasType tier vars e ty) :
    Mimics Fair (fun x => ¬IsTemp x) (evalExpr t e) (do runStmts t first; evalExpr t x) :=
  NormalForm.mimics_single (h.mimics hvars hT (.cons he .nil) (by simp))

/-- An array and an index that are kept in temporaries are the place where the value goes. -/
theorem mimics_indexAssign {T₁ T₂ : Temps} {a i a' i' v : Expr} {xs : List Expr} {moves : List Stmt}
    (hai : Prepares T [a, i] first xs T₁) (hmoves : Moves T₁ xs moves [a', i'] T₂)
    (hvars : EnvOk vars) (hT : T.Ordered) (htyped : StmtTyped tier vars (.indexAssign a i v)) :
    Mimics Fair (fun x => ¬IsTemp x) (runStmt t (.indexAssign a i v))
      (runStmts t (first ++ moves ++ [.indexAssign a' i' v])) := by
  cases htyped with
  | @indexAssign _ _ _ elem _ ha hi hvalue =>
      have hvalues : ∀ ty ∈ [Ty.array elem, .int], IsValue ty := by
        simpa using ⟨.array ha.elem_isValue, .int⟩
      have hdrop : ∀ ty ∈ [Ty.array elem, .int].dropLast, IsValue ty :=
        fun ty hty => hvalues ty (List.dropLast_subset _ hty)
      have htyped := forall₂_pair.mpr ⟨ha, hi⟩
      have hxs := (hai.typed hvars hT htyped hdrop).2
      have ha' := (forall₂_pair.mp (hmoves.typed hvars (hai.ordered hT) hxs hvalues).2).1
      have hplace := mimics_moved (t := t) (hai.mimics hvars hT htyped hdrop) hmoves
        (fun _ hx hbetween => hx hbetween.isTemp)
        (hai.not_between (not_isTemp_of_mem_names hvars htyped) le_rfl)
      have hnames : ∀ x ∈ v.names, ¬IsTemp x := fun x hx =>
        not_isTemp_of_find? hvars (find?_of_mem_names hvalue x hx).choose_spec
      rw [runStmts_append, runStmts_singleton, runStmt_indexAssign, runStmt_indexAssign, ha.ty_eq,
        ha'.ty_eq, ← bind_assoc]
      exact hplace.bind fun place => mimics_storeAt place hnames

theorem run_whileDo {c : Expr} {body : List Stmt} {bound : Nat} {w : World} (hle : w.fuel ≤ bound) :
    runStmt t (.whileDo c body) w = loop (holds t c) (runStmts t body) bound w :=
  (loop_bound hle).symm

/-- A loop whose condition needs no statements. -/
theorem simulates_whileDo {c c' : Expr} {body body' rest : List Stmt}
    (hcond : Mimics Fair (fun x => ¬IsTemp x) (holds t c) (holds t c'))
    (hbody : Simulates Fair (fun x => ¬IsTemp x) t body body')
    (hrest : Simulates Fair (fun x => ¬IsTemp x) t rest out) :
    Simulates Fair (fun x => ¬IsTemp x) t (.whileDo c body :: rest) (.whileDo c' body' :: out) := by
  rw [← List.singleton_append (l := out)]
  refine simulates_cons (fun w w' halike hfair => ?_) hrest
  rw [run_whileDo le_rfl] at hfair ⊢
  rw [runStmts_singleton, run_whileDo halike.fuel.ge]
  exact tracks_loop hcond hbody (.refl w) halike le_rfl hfair

/-- The statements that evaluate a condition into a variable print nothing. -/
theorem Prepares.runs_test {c c' : Expr} {name : String} (h : Prepares T [c] first [c'] T')
    (hvars : EnvOk vars) (hT : T.Ordered) (hcond : HasType tier vars c .bool) :
    Runs False True (runStmts t (first ++ [.assign name c'])) := by
  obtain ⟨hfirst, hc'⟩ := h.typed_single hvars hT hcond
  have hsilent := h.every (p := Stmt.isSilent) (fun _ _ => rfl) fun _ _ _ => rfl
  rw [Stmt.listEvery_eq, List.all_eq_true] at hsilent
  refine runs_runStmts (List.forall_mem_append.mpr ⟨fun s hs => ?_, fun s hs => ?_⟩)
  · exact runs_of_stmtTyped (hfirst s hs) (hsilent s hs)
  · rw [List.mem_singleton.mp hs, runStmt]
    have : Runs False True (evalExpr t c') := runs_of_hasType hc' (by simp)
    infer_instance

/-- The statements that evaluate a condition into a temporary. -/
theorem evaluatesTo_test {c c' : Expr} {T₁ T₂ T₃ : Temps} {temp : Binding}
    (hc : Prepares T [c] first [c'] T₁) (hfresh : Fresh T₂ .bool temp T₃) (hvars : EnvOk vars)
    (hT : T.Ordered) (hcond : HasType tier vars c .bool) :
    EvaluatesTo Fair (fun x => ¬IsTemp x) t c (first ++ [.assign temp.name c']) temp.name := by
  have htemp : IsTemp temp.name := hfresh.between.isTemp
  refine ⟨?_, ?_, ?_⟩
  · have : Runs False False (evalExpr t c) := runs_of_hasType hcond (by simp)
    rw [holds]
    exact Hidden.of_runs _
  · have hruns : Runs False True (runStmts t (first ++ [.assign temp.name c'])) :=
      hc.runs_test hvars hT hcond
    refine fun w => ⟨fun x hx => Eq.symm ?_, (hruns.stdout_eq w).symm⟩
    have hname : x ≠ temp.name := fun heq => hx (heq ▸ htemp)
    have hfirst := hc.leaves (t := t) fun hbetween : Between T T₁ x => hx hbetween.isTemp
    exact hfirst.append ((Leaves.assign _ hname).cons Leaves.nil) w
  · exact fun _ _ halike hfair =>
      matches_test (hc.mimics_single hvars hT hcond) (not_not_intro htemp) halike hfair

/-- A loop whose condition is evaluated into a temporary, in front of the loop and at the end of its
body. -/
theorem simulates_whileMoved {c : Expr} {test body body' rest : List Stmt} {temp : Binding}
    (hc : c.isNormal = false)
    (htest : EvaluatesTo Fair (fun x => ¬IsTemp x) t c test temp.name)
    (hbody : Simulates Fair (fun x => ¬IsTemp x) t body body')
    (hrest : Simulates Fair (fun x => ¬IsTemp x) t rest out) :
    Simulates Fair (fun x => ¬IsTemp x) t (.whileDo c body :: rest)
      (test ++ .whileDo (use temp) (body' ++ test) :: out) := by
  rw [List.append_cons]
  refine simulates_cons (fun w w' halike hfair => ?_) hrest
  have hloop : runStmts t (test ++ [.whileDo (use temp) (body' ++ test)]) w' =
      (do runStmts t test
          loop (tested temp.name) (do runStmts t body'; runStmts t test) (w.fuel + 1)) w' := by
    rw [runStmts_append, runStmts_singleton]
    refine run_bind_congr fun _ w₁ hrun => ?_
    have hle : w₁.fuel ≤ w.fuel + 1 := by
      have := fuel_le_of_ok hrun
      rw [halike.fuel]
      omega
    rw [run_whileDo hle, runStmts_append]
    rfl
  rw [run_whileDo (Nat.le_succ w.fuel)] at hfair ⊢
  rw [hloop]
  exact htest.tracks_loop hc hbody (.refl w) halike le_rfl hfair

/-- Statements and their normal form do the same, unless the run halts at a test. -/
theorem Normalizes.simulates (h : Normalizes T stmts out T') (hvars : EnvOk vars)
    (hT : T.Ordered) (htyped : ∀ s ∈ stmts, StmtTyped tier vars s)
    (hstores : Stmt.listEvery Stmt.storesNormal stmts = true) :
    Simulates Fair (fun x => ¬IsTemp x) t stmts out := by
  induction h with
  | nil =>
      intro w w' halike _
      rw [runStmts]
      exact .same (.ok halike rfl)
  | expr hx hrest ih =>
      obtain ⟨hs, htyped'⟩ := List.forall_mem_cons.mp htyped
      simp only [Stmt.listEvery, Bool.and_eq_true] at hstores
      cases hs with
      | expr he =>
          rw [List.append_cons]
          refine simulates_cons_of_mimics ?_ (ih (hx.ordered hT) htyped' hstores.2)
          rw [runStmts_append, runStmts_singleton, runStmt, runStmt, ← bind_assoc]
          exact (hx.mimics_single hvars hT he).bind fun _ => Mimics.pure ()
  | assign hv hrest ih =>
      obtain ⟨hs, htyped'⟩ := List.forall_mem_cons.mp htyped
      simp only [Stmt.listEvery, Bool.and_eq_true] at hstores
      cases hs with
      | assign _ _ he =>
          rw [List.append_cons]
          refine simulates_cons_of_mimics ?_ (ih (hv.ordered hT) htyped' hstores.2)
          rw [runStmts_append, runStmts_singleton, runStmt, runStmt, ← bind_assoc]
          exact (hv.mimics_single hvars hT he).bind fun v => mimics_assignVar _ v
  | indexAssign hai hmoves hv hrest ih =>
      obtain ⟨hs, htyped'⟩ := List.forall_mem_cons.mp htyped
      simp only [Stmt.listEvery, Stmt.every, Stmt.storesNormal, Bool.and_eq_true] at hstores
      cases hs with
      | @indexAssign _ _ _ elem harray ha hi hvalue =>
          have hT₂ := hmoves.ordered (hai.ordered hT)
          obtain rfl := hv.eq_nil_iff.1.mpr (by simp [Expr.listNormal, hstores.1])
          obtain rfl := hv.eq_of_nil
          rw [List.append_nil, List.append_cons]
          refine simulates_cons_of_mimics ?_ (ih (hv.ordered hT₂) htyped' hstores.2)
          exact mimics_indexAssign hai hmoves hvars hT (.indexAssign harray ha hi hvalue)
  | ifElse hc hthen helse hrest ihthen ihelse ih =>
      obtain ⟨hs, htyped'⟩ := List.forall_mem_cons.mp htyped
      simp only [Stmt.listEvery, Stmt.every, Bool.and_eq_true] at hstores
      cases hs with
      | ifElse hcond hthenTyped helseTyped =>
          have hT₁ := hc.ordered hT
          have hT₂ := hthen.ordered hT₁
          rw [List.append_cons]
          refine simulates_cons ?_ (ih (helse.ordered hT₂) htyped' hstores.2)
          exact fun _ _ => tracks_ifElse (hc.mimics_single hvars hT hcond)
            (ihthen hT₁ hthenTyped hstores.1.1.2) (ihelse hT₂ helseTyped hstores.1.2)
  | whileDo hc hbody hrest ihbody ih =>
      obtain ⟨hs, htyped'⟩ := List.forall_mem_cons.mp htyped
      simp only [Stmt.listEvery, Stmt.every, Bool.and_eq_true] at hstores
      cases hs with
      | whileDo hcond hbodyTyped =>
          have hT₁ := hc.ordered hT
          have hcond' := mimics_holds (hc.mimics_single (t := t) hvars hT hcond)
          rw [runStmts, pure_bind] at hcond'
          exact simulates_whileDo hcond' (ihbody hT₁ hbodyTyped hstores.1.2)
            (ih (hbody.ordered hT₁) htyped' hstores.2)
  | whileMoved hc hne hbody hfresh hrest ihbody ih =>
      obtain ⟨hs, htyped'⟩ := List.forall_mem_cons.mp htyped
      simp only [Stmt.listEvery, Stmt.every, Bool.and_eq_true] at hstores
      cases hs with
      | whileDo hcond hbodyTyped =>
          have hT₁ := hc.ordered hT
          have hT₂ := hbody.ordered hT₁
          exact simulates_whileMoved (hc.not_isNormal hne)
            (evaluatesTo_test hc hfresh hvars hT hcond) (ihbody hT₁ hbodyTyped hstores.1.2)
            (ih (hfresh.ordered hT₂) htyped' hstores.2)

end

/-! ## Whole programs -/

/-- An accepted program has a normal form.  In a fair run, from worlds that differ at most in
temporaries, both do the same if no condition of a loop needs statements.  Otherwise both do the
same unless the run halts at the test of a loop whose condition needs them. -/
theorem normalize_keeps_meaning {tier : Tier} {program : Option (List Stmt)} {env : Env}
    (hcheck : check tier program = .ok (env, stmts))
    (hstores : Stmt.listEvery Stmt.storesNormal stmts = true) :
    ∃ out temps, normalize env (some stmts) = .ok (out, temps) ∧
      ∀ (t : Target) (w w' : World), Alike (fun x => ¬IsTemp x) w w' →
        Throughout Fair (runStmts t stmts w) →
        (Stmt.listEvery Stmt.testsNormal stmts = true →
          Same (fun x => ¬IsTemp x) (runStmts t stmts w) (runStmts t out w')) ∧
        Tracks (fun x => ¬IsTemp x) (HaltsAtTest Fair (fun x => ¬IsTemp x) t stmts w)
          (runStmts t stmts w) (runStmts t out w') := by
  obtain ⟨henv, htyped⟩ := check_sound hcheck
  obtain ⟨out, T', hrun, hnorm⟩ := normalize_of_typed htyped
  refine ⟨out, T'.made, hrun, fun t w w' halike hfair => ?_⟩
  have htracks := hnorm.simulates henv Temps.ordered_empty htyped hstores w w' halike hfair
  refine ⟨fun htests => htracks.eq_same ?_, htracks⟩
  exact fun _ _ _ _ hhalt => hhalt.not_normal htests

/-- A program that finds the first row that starts with 0.  The condition of its loop is not in
normal form. -/
def firstZeroRow : List Stmt :=
  let row := Expr.index (.array .int) (.var (.array (.array .int)) "rows") (.var .int "i")
  [.assign "rows" (.arrayLit (.array (.array .int)) (.array .int)
      [.arrayLit (.array .int) .int [.int .int 5, .int .int 6],
        .arrayLit (.array .int) .int [.int .int 0]]),
    .assign "i" (.int .int 0),
    .whileDo (.binary .bool .and
        (.binary .bool .lt (.int .int 0) (.call .int Builtin.len.text [row]))
        (.binary .bool .ne (.index .int row (.int .int 0)) (.int .int 0)))
      [.assign "i" (.binary .int .add (.var .int "i") (.int .int 1))],
    .expr (.call .void Builtin.print.text [.var .int "i"])]

/-- A loop whose condition is out of range. -/
def badTest : List Stmt :=
  [.whileDo (.binary .bool .eq
    (.index .int (.arrayLit (.array .int) .int [.int .int 1]) (.int .int 5)) (.int .int 0)) []]

/-- A program that takes a truth value from an array that it does not make. -/
def staleChoice : List Stmt :=
  let made := Expr.arrayLit (.array .bool) .bool [.bool .bool true]
  [.ifElse (.bool .bool false) [.assign "a" made] [],
    .assign "b" (.binary .bool .or (.index .bool (.var (.array .bool) "a") (.int .int 0))
      (.index .bool made (.int .int 0)))]

/-- A world in which nothing has happened. -/
def idle (fuel : Nat) : World where
  vars _ := 0
  memory := (Memory.zeros 65536).write 0 Assembly.messageBytes
  frontier := 24
  console := {}
  fuel := fuel
  history := []

theorem firstZeroRow_keeps_meaning :
    let env : Env := [⟨"rows", .array (.array .int)⟩, ⟨"i", .int⟩]
    let t := Assembly.targetOf .standard
    check .array (some firstZeroRow) = .ok (env, firstZeroRow) ∧
      Stmt.listEvery Stmt.testsNormal firstZeroRow = false ∧
      ∃ out temps, normalize env (some firstZeroRow) = .ok (out, temps) ∧
        Tracks (fun x => ¬IsTemp x)
          (HaltsAtTest Fair (fun x => ¬IsTemp x) t firstZeroRow (idle 9))
          (runStmts t firstZeroRow (idle 9)) (runStmts t out ((idle 9).assign "@tmp0" 7)) := by
  intro env t
  have hcheck : check .array (some firstZeroRow) = .ok (env, firstZeroRow) := rfl
  obtain ⟨out, temps, hrun, hmeaning⟩ := normalize_keeps_meaning hcheck (by decide)
  have halike : Alike (fun x => ¬IsTemp x) (idle 9) ((idle 9).assign "@tmp0" 7) :=
    (Alike.refl (idle 9)).assign_right (not_not_intro ⟨0, rfl⟩) 7
  have htracks := (hmeaning t (idle 9) _ halike (by decide +kernel)).2
  exact ⟨hcheck, by decide, out, temps, hrun, htracks⟩

/-- Neither restriction can be dropped.  Without fuel, the normal form of a loop may halt in the
condition.  And a truth value that is neither 0 nor 1 may stay as it is in the normal form. -/
theorem normalize_changes_meaning :
    let t := Assembly.targetOf .standard
    let env : Env := [⟨"a", .array .bool⟩, ⟨"b", .bool⟩]
    (check .array (some badTest) = .ok ([], badTest) ∧
      Stmt.listEvery Stmt.storesNormal badTest = true ∧
      ∃ out temps, normalize [] (some badTest) = .ok (out, temps) ∧
        (∃ w, runStmts t badTest (idle 0) = .error .canceled w) ∧
        ∃ w, runStmts t out (idle 0) = .error (.trap .unreachable) w) ∧
    check .array (some staleChoice) = .ok (env, staleChoice) ∧
      Stmt.listEvery Stmt.storesNormal staleChoice = true ∧
      ∃ out temps, normalize env (some staleChoice) = .ok (out, temps) ∧
        (endWorld (runStmts t staleChoice (idle 0))).vars "b" = 1 ∧
        (endWorld (runStmts t out (idle 0))).vars "b" = 2053723001 := by
  intro t env
  refine ⟨⟨rfl, rfl, _, _, rfl, ⟨_, rfl⟩, ⟨_, rfl⟩⟩, rfl, rfl, _, _, rfl, ?_, ?_⟩
  · decide
  · decide

end ArrayLang.NormalForm
