import ArrayLang.Proofs.Host.Linked
import ArrayLang.Proofs.Reference.Eval

/-!
# Code that follows a computation

Code implements a computation of the reference semantics when its execution ends in the same way, in
a state that agrees with the world, and has made the accesses that the world records.  The rules put
such code together as computations are put together.

Code that implements a computation never ends with a branch, so its labels cannot clash with those
of the code around it.
-/

namespace ArrayLang.Reference

open Source Code Machine Emit Host

/-- A state of the machine and a world agree.  The scratch slots are the machine's own, and only
programs with arrays have a frontier. -/
structure Agree (t : Target) (w : World) (s : State Console) : Prop where
  memory : s.memory = w.memory
  vars : ∀ name, name ≠ arraySlot → name ≠ cursorSlot → s.locals.get name = w.vars name
  frontier : t.tier.admits .array = true → s.globals.get t.frontier = w.frontier.toUInt64
  console : s.host = w.console
  fuel : s.fuel = w.fuel

/-- What was observed is what a computation from `w` came to.  If it did not halt, the result and
the state are related by `Q`. -/
inductive Follows (t : Target) (w : World) {α : Type} (Q : α → State Console → Prop) :
    EStateM.Result Halt World α → Observed Console → Prop
  | ok {a : α} {w' : World} {s : State Console} {log : List Access} :
      Agree t w' s → w'.accesses = w.accesses ++ log → Q a s →
      Follows t w Q (.ok a w') (.next s, log)
  | halt {why : Halt} {w' : World} {s : State Console} {log : List Access} :
      Agree t w' s → w'.accesses = w.accesses ++ log →
      Follows t w Q (.error why w') (.halt why s, log)

/-- Code that is started in a state with `P` implements a computation. -/
def Implements (t : Target) (P : State Console → Prop) (code : Block) {α : Type} (x : Eval α)
    (Q : α → State Console → Prop) : Prop :=
  ∀ s w, Agree t w s → P s → Follows t w Q (x w) (observe linked code s)

variable {t : Target} {α β : Type}

/-! ## Agreement -/

@[simp] theorem World.accesses_note (w : World) (e : Event) :
    (w.note e).accesses = w.accesses ++ e.access?.toList := by
  cases h : e.access? <;> simp [World.accesses, World.note, h]

theorem Agree.note {w : World} {s : State Console} (h : Agree t w s) (e : Event) :
    Agree t (w.note e) s :=
  ⟨h.memory, h.vars, h.frontier, h.console, h.fuel⟩

theorem Agree.setStack {w : World} {s : State Console} (h : Agree t w s) (stack : List UInt64) :
    Agree t w { s with stack } :=
  ⟨h.memory, h.vars, h.frontier, h.console, h.fuel⟩

theorem Agree.setFuel {w : World} {s : State Console} (h : Agree t w s) (fuel : Nat) :
    Agree t { w with fuel } { s with fuel } :=
  ⟨h.memory, h.vars, h.frontier, h.console, rfl⟩

/-! ## Rules for what was observed -/

theorem Follows.mono {w : World} {Q R : α → State Console → Prop}
    {r : EStateM.Result Halt World α} {o : Observed Console}
    (h : Follows t w Q r o) (hQR : ∀ a s, Q a s → R a s) :
    Follows t w R r o := by
  cases h with
  | ok hagree hlog hQ => exact .ok hagree hlog (hQR _ _ hQ)
  | halt hagree hlog => exact .halt hagree hlog

/-- Accesses that were made before are put in front. -/
theorem Follows.prepend {w w' : World} {Q : α → State Console → Prop}
    {r : EStateM.Result Halt World α} {o : Observed Console} {log : List Access}
    (hlog : w'.accesses = w.accesses ++ log) (h : Follows t w' Q r o) :
    Follows t w Q r (o.1, log ++ o.2) := by
  cases h with
  | ok hagree hlog' hQ =>
      exact .ok hagree (by rw [hlog', hlog, List.append_assoc]) hQ
  | halt hagree hlog' =>
      exact .halt hagree (by rw [hlog', hlog, List.append_assoc])

/-- What happened before without an access leaves no trace. -/
theorem Follows.of_accesses_eq {w w' : World} {Q : α → State Console → Prop}
    {r : EStateM.Result Halt World α} {o : Observed Console}
    (hlog : w'.accesses = w.accesses) (h : Follows t w' Q r o) :
    Follows t w Q r o := by
  cases h with
  | ok hagree hlog' hQ => exact .ok hagree (by rw [hlog', hlog]) hQ
  | halt hagree hlog' => exact .halt hagree (by rw [hlog', hlog])

/-! ## Rules for code -/

/-- A state with a given stack, and with a condition on the local slots. -/
structure At (R : Slots → Prop) (st : List UInt64) (s : State Console) : Prop where
  stack : s.stack = st
  locals : R s.locals

/-- Code that only works on the stack. -/
def Turns (R : Slots → Prop) (st : List UInt64) (code : Block) (st' : List UInt64) : Prop :=
  ∀ memory globals locals host fuel, R locals →
    observe linked code ⟨memory, globals, locals, st, host, fuel⟩ =
      (.next ⟨memory, globals, locals, st', host, fuel⟩, [])

variable {R : Slots → Prop} {P : State Console → Prop} {st st' : List UInt64}

theorem Turns.append {st'' : List UInt64} {first second : Block}
    (hfirst : Turns R st first st') (hsecond : Turns R st' second st'') :
    Turns R st (first ++ second) st'' := by
  intro memory globals locals host fuel hR
  rw [observe_append, hfirst _ _ _ _ _ hR, Observed.andThen_next, hsecond _ _ _ _ _ hR]
  rfl

theorem Implements.mono {P' : State Console → Prop} {Q Q' : α → State Console → Prop}
    {code : Block} {x : Eval α}
    (h : Implements t P code x Q) (hP : ∀ s, P' s → P s) (hQ : ∀ a s, Q a s → Q' a s) :
    Implements t P' code x Q' := by
  intro s w hagree hs
  exact (h s w hagree (hP s hs)).mono hQ

/-- Code that only works on the stack has a value and does nothing else. -/
theorem Implements.pure {Q : α → State Console → Prop} {code : Block} {a : α}
    (h : Turns R st code st') (hQ : ∀ s, At R st' s → Q a s) :
    Implements t (At R st) code (Pure.pure a) Q := by
  rintro ⟨memory, globals, locals, stack, host, fuel⟩ w hagree ⟨rfl, hR⟩
  rw [h _ _ _ _ _ hR]
  exact .ok (hagree.setStack st') (by simp) (hQ _ ⟨rfl, hR⟩)

/-- Code for a computation, followed by code for what comes next. -/
theorem Implements.bind {Q' : α → State Console → Prop} {Q : β → State Console → Prop}
    {first second : Block} {x : Eval α} {f : α → Eval β}
    (hx : Implements t P first x Q') (hf : ∀ a, Implements t (Q' a) second (f a) Q) :
    Implements t P (first ++ second) (x >>= f) Q := by
  intro s w hagree hP
  have hfirst := hx s w hagree hP
  rw [observe_append, run_bind]
  generalize x w = r at hfirst ⊢
  generalize observe linked first s = o at hfirst ⊢
  cases hfirst with
  | ok hagree' hlog hQ => exact Follows.prepend hlog (hf _ _ _ hagree' hQ)
  | halt hagree' hlog => exact .halt hagree' hlog

/-- Code for a computation whose result is taken otherwise. -/
theorem Implements.map {Q' : α → State Console → Prop} {Q : β → State Console → Prop}
    {code : Block} {x : Eval α} {f : α → β}
    (hx : Implements t P code x Q') (hf : ∀ a s, Q' a s → Q (f a) s) :
    Implements t P code (do return f (← x)) Q := by
  intro s w hagree hP
  have hfollows := hx s w hagree hP
  rw [run_bind]
  generalize x w = r at hfollows ⊢
  generalize observe linked code s = o at hfollows ⊢
  cases hfollows with
  | ok hagree' hlog hQ => exact .ok hagree' hlog (hf _ _ hQ)
  | halt hagree' hlog => exact .halt hagree' hlog

theorem Implements.cons {Q' : α → State Console → Prop} {Q : β → State Console → Prop}
    {instr : Instr} {rest : Block} {x : Eval α} {f : α → Eval β}
    (hx : Implements t P [instr] x Q') (hf : ∀ a, Implements t (Q' a) rest (f a) Q) :
    Implements t P (instr :: rest) (x >>= f) Q :=
  Implements.bind hx hf

/-- Code that prepares the stack for code that implements a computation. -/
theorem Implements.prepare {Q : α → State Console → Prop} {first second : Block} {x : Eval α}
    (h : Turns R st first st') (hx : Implements t (At R st') second x Q) :
    Implements t (At R st) (first ++ second) x Q :=
  Implements.bind (Implements.pure (a := ()) h fun _ hs => hs) fun _ => hx

/-- A computation may start with an event that is no access. -/
theorem Implements.note {Q : α → State Console → Prop} {code : Block} {x : Eval α} {e : Event}
    (he : e.access? = none) (hx : Implements t P code x Q) :
    Implements t P code (do note e; x) Q := by
  intro s w hagree hP
  rw [run_bind_ok w (run_note w e)]
  exact (hx s _ (hagree.note e) hP).of_accesses_eq (by simp [he])

/-- Code that chooses between two computations. -/
theorem Implements.ifElse {Q : α → State Console → Prop} {thenCode elseCode : Block}
    {x y : Eval α} (result : ValType) (value : UInt64)
    (hx : Implements t (At R st) thenCode x Q) (hy : Implements t (At R st) elseCode y Q) :
    Implements t (At R (value :: st)) [.ifElse result thenCode elseCode]
      (if truth value then x else y) Q := by
  rintro ⟨memory, globals, locals, stack, host, fuel⟩ w hagree ⟨hstack, hR⟩
  subst hstack
  have hpop := hagree.setStack st
  rw [observe_ifElse, andThen_observe_nil]
  by_cases hvalue : value.toUInt32 = 0
  · have htruth : truth value = false := by simp [truth, hvalue]
    simp only [htruth, hvalue, ne_eq, not_true_eq_false, if_false, Bool.false_eq_true]
    exact hy _ _ hpop ⟨rfl, hR⟩
  · have htruth : truth value = true := by simp [truth, hvalue]
    simp only [htruth, hvalue, ne_eq, not_false_eq_true, if_true]
    exact hx _ _ hpop ⟨rfl, hR⟩

/-! ## Loops -/

/-- The code of one iteration: leave the loop if the test says so, and else make a step and start
again. -/
def iterationCode (labels : LoopLabels) (testCode stepCode : Block) : Block :=
  testCode ++ .branchIf labels.exit :: (stepCode ++ [.branch labels.start])

section Loop

variable {σ : Type} {I : σ → Slots → Prop} {test : σ → Eval Bool} {step : σ → Eval σ}
variable {g : Nat → σ → Eval Unit} {labels : LoopLabels} {testCode stepCode : Block}

theorem observe_iterationCode {s s' : State Console} {log : List Access} {v : UInt64}
    (htest : observe linked testCode s = (.next s', log)) (hstack : s'.stack = v :: st) :
    observe linked (iterationCode labels testCode stepCode) s =
      if truth v then (.branch labels.exit { s' with stack := st }, log)
      else
        let o := (observe linked stepCode { s' with stack := st }).andThen
          fun s => (.branch labels.start s, [])
        (o.1, log ++ o.2) := by
  obtain ⟨memory, globals, locals, stack, host, fuel⟩ := s'
  subst hstack
  have hbranch : observe (H := Console) linked [.branch labels.start] =
      fun s => (.branch labels.start s, []) := funext fun s => observe_branch linked [] _ s
  rw [iterationCode, observe_append, htest, Observed.andThen_next, observe_branchIf,
    observe_append, hbranch]
  by_cases hv : v.toUInt32 = 0 <;> simp [truth, hv]

/-- A loop follows a computation if its test and its steps do.  The induction is on the bound, which
the machine and the computation count down together. -/
theorem follows_loop
    (hlabels : labels.exit ≠ labels.start)
    (hzero : ∀ a, g 0 a = throw .canceled)
    (hsucc : ∀ bound a, g (bound + 1) a = do
      tick
      if ← test a then
        let b ← step a
        g bound b)
    (htest : ∀ a, Implements t (At (I a) st) testCode (test a) fun holds s =>
      ∃ v, truth v = !holds ∧ At (I a) (v :: st) s)
    (hstep : ∀ a, Implements t (At (I a) st) stepCode (step a) fun b => At (I b) st)
    (bound : Nat) (a : σ) (s : State Console) (w : World)
    (hagree : Agree t w s) (hs : At (I a) st s) :
    Follows t w (fun _ => At (fun l => ∃ a, I a l) st) (g bound a w)
      ((observeLoop linked labels.start (iterationCode labels testCode stepCode) bound s).leave
        labels.exit) := by
  induction bound generalizing a s w with
  | zero =>
      rw [hzero, observeLoop_zero]
      exact .halt hagree (by simp)
  | succ bound ih =>
      rw [hsucc, run_bind, run_tick, ← hagree.fuel]
      by_cases hfuel : s.fuel = 0
      · rw [if_pos hfuel, observeLoop_empty _ _ _ _ _ hfuel]
        exact .halt hagree (by simp)
      · rw [if_neg hfuel, observeLoop_succ _ _ _ _ _ hfuel]
        have hfirst := htest a _ _ (hagree.setFuel (s.fuel - 1)) ⟨hs.stack, hs.locals⟩
        simp only [run_bind]
        generalize test a _ = r at hfirst ⊢
        generalize ho : observe linked testCode _ = o at hfirst
        cases hfirst with
        | halt hagree' hlog =>
            rw [iterationCode, observe_append, ho]
            exact .halt hagree' hlog
        | @ok holds w' s' log hagree' hlog hpost =>
            obtain ⟨v, hv, hs'⟩ := hpost
            have hpop := hagree'.setStack st
            rw [observe_iterationCode ho hs'.stack, hv]
            cases holds with
            | false =>
                simp only [Bool.not_false, if_true, hlabels, if_false, Observed.leave_branch_self]
                exact .ok hpop hlog ⟨rfl, a, hs'.locals⟩
            | true =>
                have hnext := hstep a _ _ hpop ⟨rfl, hs'.locals⟩
                simp only [Bool.not_true, Bool.false_eq_true, if_false, run_bind, if_true]
                generalize step a w' = r at hnext ⊢
                generalize observe linked stepCode _ = o at hnext ⊢
                cases hnext with
                | halt hagree'' hlog' =>
                    exact .halt hagree'' (by rw [hlog', hlog, List.append_assoc]; rfl)
                | ok hagree'' hlog' hs'' =>
                    have hrest := ih _ _ _ hagree'' hs''
                    simp only [Observed.andThen_next, List.append_nil, if_true,
                      Observed.leave_prepend]
                    exact Follows.prepend (by rw [hlog', hlog, List.append_assoc]; rfl) hrest

/-- The code of a loop implements it. -/
theorem Implements.loop
    (hlabels : labels.exit ≠ labels.start)
    (hzero : ∀ a, g 0 a = throw .canceled)
    (hsucc : ∀ bound a, g (bound + 1) a = do
      tick
      if ← test a then
        let b ← step a
        g bound b)
    (htest : ∀ a, Implements t (At (I a) st) testCode (test a) fun holds s =>
      ∃ v, truth v = !holds ∧ At (I a) (v :: st) s)
    (hstep : ∀ a, Implements t (At (I a) st) stepCode (step a) fun b => At (I b) st)
    (a : σ) :
    Implements t (At (I a) st)
      [.block labels.exit [.loop labels.start (iterationCode labels testCode stepCode)]]
      (do g (← get).fuel a) (fun _ => At (fun l => ∃ a, I a l) st) := by
  intro s w hagree hs
  rw [observe_block, observe_loop, andThen_observe_nil, andThen_observe_nil,
    run_bind_ok w (run_get w), ← hagree.fuel]
  exact follows_loop hlabels hzero hsucc htest hstep s.fuel a s w hagree hs

end Loop

end ArrayLang.Reference
