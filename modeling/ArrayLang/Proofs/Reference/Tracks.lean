import ArrayLang.Proofs.Reference.Alike
import ArrayLang.Proofs.Reference.Passes

/-!
# Tests before fuel

A loop takes fuel for an iteration and then evaluates its condition.  A loop whose condition was
moved in front of it evaluates the condition first.  Both do the same, unless the run halts at such
a test.  Then the second loop still has the fuel for the iteration, or it comes further in the
condition than the first one, which is out of fuel.
-/

namespace ArrayLang.Reference

open Source Code Machine Emit

/-- The variables in `S` and the first output are the same. -/
structure Shows (S : String → Prop) (w w' : World) : Prop where
  vars : ∀ x, S x → w.vars x = w'.vars x
  stdout : w.console.stdout = w'.console.stdout

/-- Statements that are run from a world come to the test of a loop in another world, in which the
fuel for the iteration is not taken yet. -/
def Tests (t : Target) (stmts : List Stmt) (w : World) (cond : Expr) (w' : World) : Prop :=
  ∃ body rest w₁, Passes t stmts w (.whileDo cond body :: rest) w₁ ∧ Iterates t cond body w₁ w'

/-- How a test that takes fuel first halts, and how a test that takes fuel last halts instead. -/
inductive EarlyTest (F : Event → Prop) (S : String → Prop) (t : Target) (cond : Expr) (w : World) :
    Halt → World → Halt → World → Prop
  /-- The condition halts, and the second test has not taken fuel. -/
  | inside {why : Halt} {w₀ w₁ w₁' : World} :
      w = w₀.more → holds t cond w₀ = .error why w₁ → why ≠ .canceled → Alike S w₁.more w₁' →
      EarlyTest F S t cond w why w₁ why w₁'
  /-- The first test is out of fuel.  The second one shows no more and ends as the condition does
  with the fuel that is there, after which none is left to take. -/
  | out {why : Halt} {w₁ w₁' : World} :
      (do tick; holds t cond) w = .error .canceled w₁ → Shows S w₁ w₁' →
      (why ≠ .trap .unreachable → w₁.console.stderr = w₁'.console.stderr) →
      (Throughout F (holds t cond w) →
        Same S ((do let _ ← holds t cond; tick) w) (.error why w₁')) →
      EarlyTest F S t cond w .canceled w₁ why w₁'

/-- Statements halt at the test of a loop with a condition that is not in normal form. -/
def HaltsAtTest (F : Event → Prop) (S : String → Prop) (t : Target) (stmts : List Stmt) (w : World)
    (why : Halt) (w₁ : World) (why' : Halt) (w₁' : World) : Prop :=
  ∃ cond w₀, cond.isNormal = false ∧ Tests t stmts w cond w₀ ∧
    EarlyTest F S t cond w₀ why w₁ why' w₁'

/-- Two runs end in the same way, or both halt as `E` says. -/
inductive Tracks (S : String → Prop) (E : Halt → World → Halt → World → Prop) {α : Type} :
    EStateM.Result Halt World α → EStateM.Result Halt World α → Prop
  | same {r r' : EStateM.Result Halt World α} : Same S r r' → Tracks S E r r'
  | early {why why' : Halt} {w w' : World} :
      E why w why' w' → Tracks S E (.error why w) (.error why' w')

/-- From worlds that are alike, other statements do the same as some statements, unless these halt
at a test. -/
def Simulates (F : Event → Prop) (S : String → Prop) (t : Target) (stmts out : List Stmt) : Prop :=
  ∀ w w', Alike S w w' → Throughout F (runStmts t stmts w) →
    Tracks S (HaltsAtTest F S t stmts w) (runStmts t stmts w) (runStmts t out w')

section

variable {α β : Type} {F : Event → Prop} {S : String → Prop} {t : Target} {w w' : World}
  {E : Halt → World → Halt → World → Prop}

theorem Shows.trans {w'' : World} (h : Shows S w w') (h' : Shows S w' w'') : Shows S w w'' :=
  ⟨fun x hx => (h.vars x hx).trans (h'.vars x hx), h.stdout.trans h'.stdout⟩

theorem Shows.symm (h : Shows S w w') : Shows S w' w :=
  ⟨fun x hx => (h.vars x hx).symm, h.stdout.symm⟩

theorem Alike.shows (h : Alike S w w') : Shows S w w' := ⟨h.vars, h.console ▸ rfl⟩

theorem Alike.of_more (h : Alike S w.more w'.more) : Alike S w w' :=
  ⟨h.vars, h.memory, h.frontier, h.console, Nat.succ.inj h.fuel⟩

theorem Alike.more (h : Alike S w w') : Alike S w.more w'.more :=
  ⟨h.vars, h.memory, h.frontier, h.console, congrArg Nat.succ h.fuel⟩

/-! ## Runs that track others -/

theorem Tracks.mono {E' : Halt → World → Halt → World → Prop} {r r' : EStateM.Result Halt World α}
    (h : Tracks S E r r') (hE : ∀ why w why' w', E why w why' w' → E' why w why' w') :
    Tracks S E' r r' := by
  cases h with
  | same hsame => exact .same hsame
  | early hhalt => exact .early (hE _ _ _ _ hhalt)

theorem Tracks.eq_same {r r' : EStateM.Result Halt World α} (h : Tracks S E r r')
    (hE : ∀ why w why' w', ¬E why w why' w') : Same S r r' := by
  cases h with
  | same hsame => exact hsame
  | early hhalt => exact absurd hhalt (hE _ _ _ _)

theorem Tracks.bind {x x' : Eval α} {f f' : α → Eval β} [∀ a, Runs True True (f a)]
    (hfair : Throughout F ((x >>= f) w)) (hx : Throughout F (x w) → Tracks S E (x w) (x' w'))
    (hf : ∀ a w₁ w₁', x w = .ok a w₁ → Alike S w₁ w₁' → Throughout F (f a w₁) →
      Tracks S E (f a w₁) (f' a w₁')) :
    Tracks S E ((x >>= f) w) ((x' >>= f') w') := by
  have htracks := hx (Throughout.of_bind hfair)
  rw [run_bind] at hfair ⊢
  rw [run_bind]
  generalize hrun : x w = r at htracks hfair ⊢
  generalize x' w' = r' at htracks ⊢
  cases htracks with
  | same hsame =>
      cases hsame with
      | ok halike heq =>
          subst heq
          exact hf _ _ _ hrun halike hfair
      | error halike => exact .same (.error halike)
  | early hhalt => exact .early hhalt

/-- A test that a part of the statements comes to, the statements come to. -/
theorem HaltsAtTest.of_passes {stmts part : List Stmt} {w₁ w₂ w₂' : World} {why why' : Halt}
    (h : HaltsAtTest F S t part w₁ why w₂ why' w₂')
    (hpasses : ∀ left w', Passes t part w₁ left w' → Passes t stmts w left w') :
    HaltsAtTest F S t stmts w why w₂ why' w₂' := by
  obtain ⟨cond, w₀, hcond, ⟨body, rest, w₃, hpart, hiter⟩, hearly⟩ := h
  exact ⟨cond, w₀, hcond, ⟨body, rest, w₃, hpasses _ _ hpart, hiter⟩, hearly⟩

theorem HaltsAtTest.not_normal {stmts : List Stmt} {w₁ w₁' : World} {why why' : Halt}
    (h : HaltsAtTest F S t stmts w why w₁ why' w₁') :
    Stmt.listEvery Stmt.testsNormal stmts ≠ true := by
  obtain ⟨cond, w₀, hcond, ⟨body, rest, w₂, hpasses, -⟩, -⟩ := h
  intro hstmts
  have hleft := hpasses.every hstmts
  simp [Stmt.listEvery, Stmt.every, Stmt.testsNormal, hcond] at hleft

theorem simulates_cons {s : Stmt} {head rest out : List Stmt}
    (hs : ∀ w w', Alike S w w' → Throughout F (runStmt t s w) →
      Tracks S (HaltsAtTest F S t (s :: rest) w) (runStmt t s w) (runStmts t head w'))
    (hrest : Simulates F S t rest out) : Simulates F S t (s :: rest) (head ++ out) := by
  intro w w' halike hfair
  rw [runStmts] at hfair ⊢
  rw [runStmts_append]
  refine Tracks.bind hfair (hs w w' halike) fun _ w₁ w₁' hrun halike₁ hfair₁ => ?_
  refine (hrest w₁ w₁' halike₁ hfair₁).mono fun _ _ _ _ hhalt => hhalt.of_passes ?_
  exact fun _ _ => .after hrun

/-! ## Hidden computations -/

/-- A computation changes no variable in `S` and prints nothing. -/
def Hidden (S : String → Prop) {α : Type} (x : Eval α) : Prop := ∀ w, Shows S w (endWorld (x w))

theorem Hidden.of_runs (x : Eval α) [h : Runs False False x] : Hidden S x :=
  fun w => ⟨fun y _ => congrFun (h.vars_eq w).symm y, (h.stdout_eq w).symm⟩

theorem Hidden.bind {x : Eval α} {f : α → Eval β} (hx : Hidden S x) (hf : ∀ a, Hidden S (f a)) :
    Hidden S (x >>= f) := by
  intro w
  have hshows := hx w
  rw [run_bind]
  generalize x w = r at hshows ⊢
  cases r with
  | ok a w₁ => exact hshows.trans (hf a w₁)
  | error why w₁ => exact hshows

/-! ## Loops -/

variable {c c' : Expr} {body body' rest test : List Stmt} {temp : String} {w₀ : World}

/-- A loop with a condition that does the same tracks the loop that it stands for.  The invariant is
that its condition is tested in the world `w`. -/
theorem tracks_loop (hcond : Mimics F S (holds t c) (holds t c'))
    (hbody : Simulates F S t body body') (hiter : Iterates t c body w₀ w) (halike : Alike S w w')
    {bound : Nat} (hle : w.fuel ≤ bound)
    (hfair : Throughout F (loop (holds t c) (runStmts t body) bound w)) :
    Tracks S (HaltsAtTest F S t (.whileDo c body :: rest) w₀)
      (loop (holds t c) (runStmts t body) bound w)
      (loop (holds t c') (runStmts t body') bound w') := by
  induction bound generalizing w w' with
  | zero => exact .same (.error halike)
  | succ bound ih =>
      rw [loop_add_one] at hfair ⊢
      rw [loop_add_one]
      refine Tracks.bind hfair (fun hfair => .same (Mimics.of_blind tick w w' halike hfair)) ?_
      intro _ w₁ w₁' htick halike₁ hfair₁
      obtain rfl := eq_more_of_tick htick
      refine Tracks.bind hfair₁ (fun hfair => .same (hcond w₁ w₁' halike₁ hfair)) ?_
      intro b w₂ w₂' hrun halike₂ hfair₂
      cases b with
      | false => exact .same (.ok halike₂ rfl)
      | true =>
          refine Tracks.bind hfair₂ (fun hfair => ?_) fun _ w₃ w₃' hrun' halike₃ hfair₃ => ?_
          · refine (hbody w₂ w₂' halike₂ hfair).mono fun _ _ _ _ hhalt => hhalt.of_passes ?_
            exact fun _ _ => .inLoop hiter (Nat.succ_ne_zero _) hrun
          · have hle₂ := (fuel_le_of_ok hrun).trans (Nat.le_of_succ_le_succ hle)
            exact ih (hiter.tail (Nat.succ_ne_zero _) hrun hrun') halike₃
              ((fuel_le_of_ok hrun').trans hle₂) hfair₃

/-- Read the outcome of a test from a variable. -/
def tested (temp : String) : Eval Bool := do return truth (← readVar temp)

theorem run_tested (w : World) :
    tested temp w = .ok (truth (w.vars temp)) (w.note (.read temp)) := rfl

/-- Statements evaluate a condition into a variable, and neither shows anything but a report. -/
structure EvaluatesTo (F : Event → Prop) (S : String → Prop) (t : Target) (c : Expr)
    (test : List Stmt) (temp : String) : Prop where
  cond_hidden : Hidden S (holds t c)
  test_hidden : Hidden S (runStmts t test)
  value : ∀ w w', Alike S w w' → Throughout F (holds t c w) →
    Matches S (fun b _ w₁ => truth (w₁.vars temp) = b) (holds t c w) (runStmts t test w')

/-- The loop is out of fuel at a test, and the statements leave no fuel or halt. -/
theorem EvaluatesTo.tracks_out (htest : EvaluatesTo F S t c test temp) (hc : c.isNormal = false)
    (hiter : Iterates t c body w₀ w) (halike : Alike S w w') {w₁ : World} {after : Eval Unit}
    {bound : Nat} (hcut : (do tick; holds t c) w = .error .canceled w₁)
    (hzero : ∀ w₁', runStmts t test w' = .ok () w₁' → w₁'.fuel = 0) :
    Tracks S (HaltsAtTest F S t (.whileDo c body :: rest) w₀)
      (loop (holds t c) (runStmts t body) (bound + 1) w)
      ((do runStmts t test; loop (tested temp) after (bound + 1)) w') := by
  obtain ⟨why, w₁', hlate⟩ :
      ∃ why w₁', (do runStmts t test; tick) w' = .error why w₁' := by
    cases hrun : runStmts t test w' with
    | ok _ w₁' =>
        exact ⟨_, w₁', (run_bind_ok w' hrun).trans (run_tick_zero (hzero w₁' hrun))⟩
    | error why w₁' => exact ⟨why, w₁', run_bind_error w' hrun⟩
  have hshows := ((Hidden.of_runs tick).bind fun _ => htest.cond_hidden) w
  have hshows' := (htest.test_hidden.bind fun _ => Hidden.of_runs tick) w'
  rw [hcut] at hshows
  rw [hlate] at hshows'
  rw [loop_add_one, loop_add_one, ← bind_assoc, ← bind_assoc, run_bind_error w hcut,
    run_bind_error w' hlate]
  refine .early ⟨c, w, hc, ⟨body, rest, w₀, .here _ _, hiter⟩, .out hcut ?_ ?_ ?_⟩
  · exact (hshows.symm.trans halike.shows).trans hshows'
  · intro hwhy
    have hruns : Runs True True (do tick; holds t c) := inferInstance
    have hruns' : Runs True True (do runStmts t test; tick) := inferInstance
    have hstderr := hruns.stderr_eq w (by simp [hcut])
    have hstderr' := hruns'.stderr_eq w' (by simp [hlate, hwhy])
    rw [hcut] at hstderr
    rw [hlate] at hstderr'
    exact hstderr.trans (halike.console ▸ hstderr'.symm)
  · intro hfair
    rw [← hlate]
    refine (htest.value w w' halike hfair).bind ?_
    exact fun _ _ w₂ w₂' _ _ halike₂ _ => Blind.same S w₂ w₂' halike₂

/-- The loop has no fuel for a test. -/
theorem EvaluatesTo.tracks_zero (htest : EvaluatesTo F S t c test temp) (hc : c.isNormal = false)
    (hiter : Iterates t c body w₀ w) (halike : Alike S w w') {after : Eval Unit} {bound : Nat}
    (hzero : w.fuel = 0) :
    Tracks S (HaltsAtTest F S t (.whileDo c body :: rest) w₀)
      (loop (holds t c) (runStmts t body) (bound + 1) w)
      ((do runStmts t test; loop (tested temp) after (bound + 1)) w') := by
  refine htest.tracks_out hc hiter halike (run_bind_error w (run_tick_zero hzero)) ?_
  exact fun w₁' hrun => Nat.le_zero.mp ((fuel_le_of_ok hrun).trans (halike.fuel ▸ hzero).le)

/-- The condition and the statements with one more unit of fuel, which the loop has taken. -/
theorem EvaluatesTo.run_more (htest : EvaluatesTo F S t c test temp) (halike : Alike S w w')
    (hfair : Throughout F (holds t c w)) {b : Bool} {w₁ : World} (hcond : holds t c w = .ok b w₁) :
    ∃ w₁', runStmts t test w'.more = .ok () w₁'.more ∧ Alike S w₁ w₁' ∧
      truth (w₁'.vars temp) = b := by
  have hmatches := htest.value w w' halike hfair
  have hshift := Shifts.shifted (c := runStmts t test) w'
  rw [hcond] at hmatches
  generalize runStmts t test w' = r at hmatches hshift
  generalize runStmts t test w'.more = r' at hshift ⊢
  cases hmatches with
  | ok halike₁ hvalue =>
      cases hshift with
      | ok => exact ⟨_, rfl, halike₁, hvalue⟩

/-- The loop halts in a condition. -/
theorem EvaluatesTo.tracks_error (htest : EvaluatesTo F S t c test temp) (hc : c.isNormal = false)
    (hiter : Iterates t c body w₀ w.more) (halike : Alike S w w')
    (hfair : Throughout F (holds t c w)) {why : Halt} {w₁ : World} {after : Eval Unit} {bound : Nat}
    (hcond : holds t c w = .error why w₁) :
    Tracks S (HaltsAtTest F S t (.whileDo c body :: rest) w₀)
      (loop (holds t c) (runStmts t body) (bound + 1) w.more)
      ((do runStmts t test; loop (tested temp) after (bound + 1)) w'.more) := by
  have hmatches := htest.value w w' halike hfair
  have hshift := Shifts.shifted (c := runStmts t test) w'
  rw [hcond] at hmatches
  generalize runStmts t test w' = r at hmatches hshift
  generalize hmore : runStmts t test w'.more = r' at hshift
  cases hmatches with
  | error halike₁ =>
      by_cases hwhy : why = .canceled
      · subst hwhy
        have hcut : (do tick; holds t c) w.more = .error .canceled w₁ :=
          (run_bind_ok _ (run_tick_more w)).trans hcond
        refine htest.tracks_out hc hiter halike.more hcut fun w₂' hrun => ?_
        rw [hmore] at hrun
        cases hshift with
        | error => exact nomatch hrun
        | out _ hfuel => exact hfuel () w₂' hrun
      · cases hshift with
        | error =>
            rw [loop_add_one, run_bind_ok _ (run_tick_more w), run_bind_error _ hcond,
              run_bind_error _ hmore]
            refine .early ⟨c, _, hc, ⟨body, rest, w₀, .here _ _, hiter⟩, ?_⟩
            exact .inside rfl hcond hwhy halike₁.more
        | out => exact absurd rfl hwhy

/-- A loop whose condition is evaluated into a variable, in front of the loop and at the end of its
body, tracks the loop that it stands for. -/
theorem EvaluatesTo.tracks_loop (htest : EvaluatesTo F S t c test temp) (hc : c.isNormal = false)
    (hbody : Simulates F S t body body') (hiter : Iterates t c body w₀ w) (halike : Alike S w w')
    {bound : Nat} (hle : w.fuel ≤ bound)
    (hfair : Throughout F (loop (holds t c) (runStmts t body) (bound + 1) w)) :
    Tracks S (HaltsAtTest F S t (.whileDo c body :: rest) w₀)
      (loop (holds t c) (runStmts t body) (bound + 1) w)
      ((do
        runStmts t test
        loop (tested temp) (do runStmts t body'; runStmts t test) (bound + 1)) w') := by
  induction bound generalizing w w' with
  | zero => exact htest.tracks_zero hc hiter halike (Nat.le_zero.mp hle)
  | succ bound ih =>
      by_cases hzero : w.fuel = 0
      · exact htest.tracks_zero hc hiter halike hzero
      obtain ⟨w₁, rfl, -⟩ := World.exists_more hzero
      obtain ⟨w₁', rfl, -⟩ := World.exists_more (halike.fuel ▸ hzero : w'.fuel ≠ 0)
      rw [loop_add_one, run_bind_ok _ (run_tick_more w₁)] at hfair
      have hfair₁ := Throughout.of_bind hfair
      cases hcond : holds t c w₁ with
      | error why w₂ => exact htest.tracks_error hc hiter halike.of_more hfair₁ hcond
      | ok b w₂ =>
          obtain ⟨w₂', hmore, halike₂, hvalue⟩ := htest.run_more halike.of_more hfair₁ hcond
          rw [run_bind_ok _ hcond] at hfair
          rw [loop_add_one, run_bind_ok _ (run_tick_more w₁), run_bind_ok _ hcond,
            run_bind_ok _ hmore, loop_add_one (tested temp), run_bind_ok _ (run_tick_more w₂'),
            run_bind_ok _ (run_tested w₂'), hvalue]
          have halike₃ : Alike S w₂ (w₂'.note (.read temp)) := halike₂.history w₂.history _
          cases b with
          | false => exact .same (.ok halike₃ rfl)
          | true =>
              simp only [if_true, bind_assoc] at hfair ⊢
              refine Tracks.bind hfair (fun hfair => ?_) ?_
              · refine (hbody w₂ _ halike₃ hfair).mono fun _ _ _ _ hhalt => ?_
                exact hhalt.of_passes fun _ _ => .inLoop hiter (Nat.succ_ne_zero _) hcond
              · intro _ w₃ w₃' hrun halike₄ hfair₃
                have hle₂ := (fuel_le_of_ok hcond).trans (Nat.le_of_succ_le_succ hle)
                exact ih (hiter.tail (Nat.succ_ne_zero _) hcond hrun) halike₄
                  ((fuel_le_of_ok hrun).trans hle₂) hfair₃

end

end ArrayLang.Reference
