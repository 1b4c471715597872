import ArrayLang.Assembly
import ArrayLang.Proofs.Emit.Stmts

/-!
# Code generation is correct

The code of well-typed statements in normal form does what the reference semantics says, from every
state and above every stack.  Code generation does not fail on such statements.
-/

namespace ArrayLang.Reference

open Source Code Machine Emit Host Typing

/-- The world that a state of the machine stands for, with an empty history. -/
def worldOf (t : Target) (s : State Console) : World where
  vars := s.locals.get
  memory := s.memory
  frontier := (s.globals.get t.frontier).toUInt32
  console := s.host
  fuel := s.fuel
  history := []

/-- An execution has the outcome of a run: it ends well with the same stack as at the start, or it
halts for the same reason, and in both cases the last state agrees with the last world. -/
inductive SameOutcome (t : Target) (stack : List UInt64) :
    EStateM.Result Halt World Unit → Outcome Console → Prop
  | done {w : World} {s : State Console} :
      Agree t w s → s.stack = stack → SameOutcome t stack (.ok () w) (.next s)
  | halted {why : Halt} {w : World} {s : State Console} :
      Agree t w s → SameOutcome t stack (.error why w) (.halt why s)

theorem agree_worldOf {t : Target} {s : State Console}
    (h : (s.globals.get t.frontier).toNat < UInt32.size) : Agree t (worldOf t s) s where
  memory := rfl
  vars _ _ _ := rfl
  frontier _ := by
    apply UInt64.toNat_inj.mp
    rw [worldOf, UInt32.toNat_toUInt64, UInt64.toNat_toUInt32, Nat.mod_eq_of_lt h]
  console := rfl
  fuel := rfl

theorem RunsStmts.sameOutcome {t : Target} {stmts : List Stmt} {code : Block}
    {s : State Console} {w : World} (h : RunsStmts t stmts code) (hagree : Agree t w s) :
    SameOutcome t s.stack (runStmts t stmts w) (execBlock linked code s) := by
  have hfollows := h.implements s.stack s w hagree ⟨rfl, trivial⟩
  rw [observe] at hfollows
  generalize runStmts t stmts w = r at hfollows ⊢
  generalize execBlock linked code s = outcome at hfollows ⊢
  cases hfollows with
  | ok hagree' _ hs => exact .done hagree' hs.stack
  | halt hagree' _ => exact .halted hagree'

theorem RunsStmts.accesses_eq {t : Target} {stmts : List Stmt} {code : Block}
    {s : State Console} {w : World} (h : RunsStmts t stmts code) (hagree : Agree t w s) :
    (endWorld (runStmts t stmts w)).accesses = w.accesses ++ blockAccesses linked code s := by
  have hfollows := h.implements s.stack s w hagree ⟨rfl, trivial⟩
  rw [observe] at hfollows
  generalize runStmts t stmts w = r at hfollows ⊢
  generalize execBlock linked code s = outcome at hfollows
  generalize blockAccesses linked code s = log at hfollows ⊢
  cases hfollows with
  | ok _ hlog _ => exact hlog
  | halt _ hlog => exact hlog

theorem Target.maxArrayBytes_pos {t : Target} (htier : t.tier = .array)
    (h : t.validate = .ok ()) : 0 < t.maxArrayBytes := by
  rw [Target.validate, if_pos htier] at h
  by_contra hpos
  rw [if_pos (Int64.not_lt.mp hpos)] at h
  exact absurd h (by simp)

theorem emitted_program {t : Target} {env : Env} {stmts : List Stmt}
    (hloop : t.tier.admits .loop = true)
    (hmax : t.tier.admits .array = true → 0 < t.maxArrayBytes)
    (htyped : ∀ s ∈ stmts, StmtTyped t.tier env s) (hnormal : Stmt.listNormal stmts = true)
    (hnames : NoScratch (Stmt.listNames stmts)) :
    Emitted (Emit.stmts t stmts) (RunsStmts t stmts) := by
  rw [Stmt.listNormal_iff] at hnormal
  refine emitted_stmts fun s hs => ?_
  exact emitted_stmt hloop hmax (htyped s hs) (hnormal s hs) (hnames.of_mem_stmts hs)

/-- There is code for every well-typed list of statements in normal form that does not name the
scratch slots, and executing it from any state has the outcome of running the statements. -/
theorem code_has_outcome_of_run {t : Target} {env : Env} {stmts : List Stmt}
    (htier : t.tier = .array) (hvalid : t.validate = .ok ())
    (htyped : ∀ s ∈ stmts, StmtTyped t.tier env s)
    (hnormal : Stmt.listNormal stmts = true)
    (harray : arraySlot ∉ Stmt.listNames stmts) (hcursor : cursorSlot ∉ Stmt.listNames stmts)
    (p : Progress) :
    ∃ code p', (Emit.stmts t stmts).run p = (.ok code, p') ∧
      ∀ s : State Console, (s.globals.get t.frontier).toNat < UInt32.size →
        SameOutcome t s.stack (runStmts t stmts (worldOf t s)) (execBlock linked code s) := by
  have hloop : t.tier.admits .loop = true := by
    rw [htier]
    decide
  obtain ⟨code, p', hrun, hruns⟩ := emitted_program hloop
    (fun _ => Target.maxArrayBytes_pos htier hvalid) htyped hnormal ⟨harray, hcursor⟩ p
  refine ⟨code, p', hrun, ?_⟩
  intro s hfrontier
  exact hruns.sameOutcome (agree_worldOf hfrontier)

/-- A program that makes an array and replaces its elements by the squares of their indices. -/
def squares : List Stmt :=
  [.assign "a" (.arrayLit (.array .int) .int [.int .int 5, .int .int 6, .int .int 7]),
    .assign "i" (.int .int 0),
    .whileDo (.binary .bool .lt (.var .int "i")
        (.call .int Builtin.len.text [.var (.array .int) "a"]))
      [.indexAssign (.var (.array .int) "a") (.var .int "i")
          (.binary .int .mul (.var .int "i") (.var .int "i")),
        .assign "i" (.binary .int .add (.var .int "i") (.int .int 1))],
    .expr (.call .void Builtin.print.text
      [.index .int (.var (.array .int) "a") (.int .int 2)])]

theorem squares_typed (s : Stmt) (hs : s ∈ squares) :
    StmtTyped .array [⟨"a", .array .int⟩, ⟨"i", .int⟩] s := by
  have ha : HasType .array [⟨"a", .array .int⟩, ⟨"i", .int⟩] (.var (.array .int) "a")
      (.array .int) := .var rfl rfl (.array .int)
  have hi : HasType .array [⟨"a", .array .int⟩, ⟨"i", .int⟩] (.var .int "i") .int :=
    .var rfl rfl .int
  simp only [squares, List.mem_cons, List.not_mem_nil, or_false] at hs
  rcases hs with rfl | rfl | rfl | rfl
  · refine .assign rfl (.array .int) (.arrayLit rfl .int (by simp) ?_)
    intro e he
    simp only [List.mem_cons, List.not_mem_nil, or_false] at he
    rcases he with rfl | rfl | rfl <;> exact .int rfl
  · exact .assign rfl .int (.int rfl)
  · refine .whileDo (.order (by simp) hi (.len rfl ha)) ?_
    intro s hs
    simp only [List.mem_cons, List.not_mem_nil, or_false] at hs
    rcases hs with rfl | rfl
    · exact .indexAssign rfl ha hi (.arith (by simp) hi hi)
    · exact .assign rfl .int (.arith (by simp) hi (.int rfl))
  · exact .expr (.print (.index rfl ha (.int rfl)) .int)

/-- The squares are computed by code, here above a stack with one value. -/
theorem squares_code_has_outcome_of_run :
    let t := Assembly.targetOf .standard
    let s : State Console := ⟨.zeros 65536, [(t.frontier, 24)], [], [7], {}, 10⟩
    ∃ code p', (Emit.stmts t squares).run {} = (.ok code, p') ∧
      SameOutcome t [7] (runStmts t squares (worldOf t s)) (execBlock linked code s) := by
  intro t s
  obtain ⟨code, p', hrun, houtcome⟩ := code_has_outcome_of_run (t := t) rfl rfl squares_typed
    (by decide) (by decide) (by decide) {}
  exact ⟨code, p', hrun, houtcome s (by decide)⟩

end ArrayLang.Reference
