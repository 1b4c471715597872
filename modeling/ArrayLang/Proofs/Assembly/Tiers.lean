import ArrayLang.Proofs.Assembly.Safety
import ArrayLang.Proofs.Emit.Tiers
import ArrayLang.Proofs.Typing.Tiers

/-!
# The two languages

Whatever is assembled as a program with loops only is also assembled as a program with arrays, unless
the settings leave no room for arrays.  Both modules have the same code and the same slots, and they
run alike: the frontier is declared for arrays only, and a program without arrays does not use it.
-/

namespace ArrayLang.Assembly

open Source Code Typing NormalForm Machine Host Reference

/-! ## Programs without arrays -/

/-- Normalisation leaves a program without arrays as it is. -/
theorem normalize_of_loop {source checked : List Stmt} {env : Env}
    (h : check .loop (some source) = .ok (env, checked)) :
    normalize env (some checked) = .ok (checked, []) := by
  have htyped := (check_sound h).2
  obtain ⟨out, T, hnormalize, hnorm⟩ := normalize_of_typed htyped
  have hnormal : Stmt.listNormal checked = true :=
    Stmt.listNormal_iff.mpr fun x hx => (htyped x hx).isNormal rfl
  obtain ⟨rfl, rfl⟩ := hnorm.eq_of_normal hnormal
  exact hnormalize

/-- The machines of two modules can be made, and their runs end alike: for the same reason, with the
same values in the slots, the same memory and the same console. -/
def RunAlike (module module' : Module) : Prop :=
  ∀ console fuel, ∃ m m',
    Machine.load (some module) functions console = .ok m ∧
    Machine.load (some module') functions console = .ok m' ∧
    (m'.run fuel).1 = (m.run fuel).1 ∧
    (m'.run fuel).2.entryLocals = (m.run fuel).2.entryLocals ∧
    (m'.run fuel).2.memory = (m.run fuel).2.memory ∧
    (m'.run fuel).2.host = (m.run fuel).2.host

/-- What was assembled with arrays differs from what was assembled without them in the declaration of
the frontier only. -/
structure OnlyAddsFrontier (program : Option (List Stmt)) (a a' : Assembled) : Prop where
  unchanged : ∃ env checked, check .loop program = .ok (env, checked) ∧
    check .array program = .ok (env, checked) ∧ normalize env (some checked) = .ok (checked, [])
  temporaries : a.temporaries = [] ∧ a'.temporaries = []
  noFrontier : a.module.globals = []
  module_eq : a'.module =
    { a.module with globals := [⟨frontierName, .i32, true, Int64.ofNat heapStart⟩] }
  noScratch : ∀ f ∈ a.module.funcs, ∀ l ∈ f.locals,
    l.name ≠ Emit.arraySlot ∧ l.name ≠ Emit.cursorSlot
  runs : RunAlike a.module a'.module

/-! ## Two ways through the stages -/

section

variable {s s' : Settings} {source checked : List Stmt} {env : Env} {a a' : Assembled}
  {major? : String → Option String}

/-- The slots of a program without arrays are those of its variables. -/
theorem Stages.locals_of_uniform (st : Stages s source a major?)
    (hform : formOf s.tier source = ⟨env, checked, []⟩)
    (hcode : Emit.Uniform fun t => Emit.stmts t checked) :
    st.entry.locals = (Env.sorted env).map slotOf := by
  have hemit := st.emit_ok
  rw [hform] at hemit
  have hscratch : st.progress.scratch = false := hcode.scratch _ _ _ _ hemit
  rw [st.locals_eq, hform, localsOf, Emit.Progress.scratchLocals, hscratch]
  simp

/-- Under all settings, a program without arrays has the same code. -/
theorem Stages.body_of_uniform (st : Stages s source a major?) (st' : Stages s' source a' major?)
    (hform : formOf s.tier source = ⟨env, checked, []⟩)
    (hform' : formOf s'.tier source = ⟨env, checked, []⟩)
    (hcode : Emit.Uniform fun t => Emit.stmts t checked) : st'.body = st.body := by
  have hemit := st.emit_ok
  have hemit' := st'.emit_ok
  rw [hform] at hemit
  rw [hform', hcode.same (targetOf s) (targetOf s') (admits_loop s) (admits_loop s'), hemit]
    at hemit'
  simp only [Prod.mk.injEq, Except.ok.injEq] at hemit'
  exact hemit'.1.symm

theorem Stages.entryLocals_stopped (st : Stages s source a major?) (console : Console)
    (state : State Console) : ((st.machine console).stopped state).entryLocals =
      st.entry.locals.map fun l => (l.name, state.locals.get l.name) := by
  have hfunc : ((st.machine console).stopped state).module.func?
      ((st.machine console).stopped state).module.entry = some st.entry := st.func?_entry
  rw [entryLocals, hfunc]
  rfl

/-- Two assembled programs run alike if they have the same slots and the same meaning, and no
variable is kept in a scratch slot. -/
theorem Stages.runAlike (st : Stages s source a major?) (st' : Stages s' source a' major?)
    (hlocals : st'.entry.locals = st.entry.locals)
    (hscratch : ∀ l ∈ st.entry.locals, l.name ≠ Emit.arraySlot ∧ l.name ≠ Emit.cursorSlot)
    (hrun : ∀ console fuel, runOf s' source console fuel = runOf s source console fuel) :
    RunAlike a.module a'.module := by
  intro console fuel
  obtain ⟨state, hagree, hend⟩ := st.run_eq console fuel
  obtain ⟨state', hagree', hend'⟩ := st'.run_eq console fuel
  rw [hrun] at hagree' hend'
  refine ⟨_, _, st.load_ok console, st'.load_ok console, ?_⟩
  rw [hend, hend']
  constructor
  · rfl
  constructor
  · rw [st.entryLocals_stopped, st'.entryLocals_stopped, hlocals]
    apply List.map_congr_left
    intro l hl
    obtain ⟨harray, hcursor⟩ := hscratch l hl
    rw [hagree.vars _ harray hcursor, hagree'.vars _ harray hcursor]
  constructor
  · exact hagree'.memory.trans hagree.memory.symm
  · exact hagree'.console.trans hagree.console.symm

end

/-- A program that is assembled without arrays is assembled with arrays too, if the settings allow
it, and all that changes is that the frontier is declared. -/
theorem array_tier_extends_loop_tier {s : Settings} {program : Option (List Stmt)} {a : Assembled}
    {major? : String → Option String}
    (hassemble : assemble { s with lang := "loop" } program major? = .ok a)
    (hvalid : Settings.validate { s with lang := "array" } major? = .ok ())
    (hmemory : memoryTooSmall { s with lang := "array" } = false) :
    ∃ a', assemble { s with lang := "array" } program major? = .ok a' ∧
      OnlyAddsFrontier program a a' := by
  obtain ⟨source, rfl⟩ := exists_source hassemble
  obtain ⟨st⟩ := exists_stages hassemble
  have hcheck : check .loop (some source) = .ok (_, st.checked) := st.check_ok
  have hcheck' : check .array (some source) = .ok (_, st.checked) :=
    check_mono (by decide) hcheck
  have hnormalize := normalize_of_loop hcheck
  -- Under both settings the program is its own normal form.
  have hform : formOf (Settings.tier { s with lang := "loop" }) source = ⟨_, st.checked, []⟩ :=
    formOf_eq hcheck hnormalize
  have hform' : formOf (Settings.tier { s with lang := "array" }) source = ⟨_, st.checked, []⟩ :=
    formOf_eq hcheck' hnormalize
  obtain ⟨a', ⟨st'⟩⟩ := exists_stages_of_check hvalid (heapStart_le_iff.mp st.heapStart_le) hmemory
    hcheck'
  obtain ⟨henv, htyped⟩ := check_sound hcheck
  -- It is typed at the tier without arrays, so its code and its meaning do not depend on the target.
  have hcode : Emit.Uniform fun t => Emit.stmts t st.checked :=
    Emit.uniform_stmts fun x hx => Emit.uniform_stmt rfl (htyped x hx)
  have hlocals := st.locals_of_uniform hform hcode
  have hlocals' := st'.locals_of_uniform hform' hcode
  have hbody := st.body_of_uniform st' hform hform' hcode
  have hscratch : ∀ l ∈ st.entry.locals, l.name ≠ Emit.arraySlot ∧ l.name ≠ Emit.cursorSlot := by
    intro l hl
    rw [hlocals] at hl
    obtain ⟨b, hb, rfl⟩ := List.mem_map.mp hl
    have htemps : TempsOk [] := ⟨by simp, by simp, by simp⟩
    apply ne_scratch henv htemps
    rw [List.append_nil]
    exact find?_of_mem henv.distinct (mem_sorted.mp hb)
  have hmodule : a.module = moduleOf { s with lang := "loop" } st.entry.locals st.body :=
    st.module_eq
  have hmodule' : a'.module = moduleOf { s with lang := "array" } st'.entry.locals st'.body :=
    st'.module_eq
  refine ⟨a', st'.assemble_eq, ?_⟩
  constructor
  · exact ⟨_, _, hcheck, hcheck', hnormalize⟩
  · have htemps := st.temporaries_eq
    have htemps' := st'.temporaries_eq
    exact ⟨htemps.symm.trans (congrArg Form.temporaries hform),
      htemps'.symm.trans (congrArg Form.temporaries hform')⟩
  · rw [hmodule]
    rfl
  · rw [hmodule, hmodule', hlocals, hlocals', hbody]
    rfl
  · intro f hf
    rw [hmodule] at hf
    obtain rfl : f = st.entry := List.mem_singleton.mp hf
    exact hscratch
  · apply st.runAlike st' (hlocals'.trans hlocals.symm) hscratch
    intro console fuel
    rw [runOf, runOf, hform, hform', runStmts_target _ (targetOf { s with lang := "loop" })
      fun x hx => runStmt_target rfl _ _ (htyped x hx)]
    rfl

/-- A program that reads a number and prints its factorial. -/
def factorial : List Stmt :=
  [.assign "n" (.call .int Builtin.inputInt.text []),
    .assign "product" (.int .int 1),
    .whileDo (.binary .bool .lt (.int .int 1) (.var .int "n"))
      [.assign "product" (.binary .int .mul (.var .int "product") (.var .int "n")),
        .assign "n" (.binary .int .sub (.var .int "n") (.int .int 1))],
    .expr (.call .void Builtin.print.text [.var .int "product"])]

theorem factorial_extends :
    ∃ a a', assemble { Settings.standard with lang := "loop" } (some factorial) = .ok a ∧
      assemble .standard (some factorial) = .ok a' ∧ OnlyAddsFrontier (some factorial) a a' := by
  obtain ⟨a, ⟨st⟩⟩ : ∃ a, Nonempty (Stages { Settings.standard with lang := "loop" } factorial a) :=
    exists_stages_of_check (by decide) (by decide) (by decide) rfl
  obtain ⟨a', hassemble', hadds⟩ := array_tier_extends_loop_tier st.assemble_eq (by decide)
    (by decide)
  exact ⟨a, a', st.assemble_eq, hassemble', hadds⟩

end ArrayLang.Assembly
