import ArrayLang.Proofs.Heap.Assembled
import ArrayLang.Proofs.Heap.Room

/-!
# Traps

A run that traps has reported one of the two messages, unless memory is exhausted.  Then the store
of a part of a new array is out of bounds, and the run traps without a report.  Nothing is reported
by a run that does not trap.
-/

namespace ArrayLang.Reference

open Source Code Machine Emit Host Typing NormalForm Assembly

/-- One of the two messages was reported, and nothing else. -/
def Diagnosed (console : Console) (stderr : Array UInt8) : Prop :=
  ∃ text ∈ [capacityText, indexText], stderr = (console.report (Text.bytesOfText text)).stderr

section

variable {s : Settings} {source : List Stmt} {a : Assembled} {major? : String → Option String}
  {console : Console} {fuel : Nat}

/-! ## Runs that nothing leads astray -/

theorem Halts.diagnosed {nulls : Prop} {w w' : World}
    (h : Halts (regimeOf s source nulls) w (.trap .unreachable) w') :
    Diagnosed w.console w'.console.stderr := by
  obtain ⟨msg, hmsg, hreport⟩ := h.reported rfl
  obtain ⟨hcapacity, hindex⟩ := read_messages h.messages
  rcases List.mem_pair.mp hmsg with rfl | rfl
  · refine ⟨capacityText, by simp, ?_⟩
    rw [← hcapacity]
    exact hreport
  · refine ⟨indexText, by simp, ?_⟩
    rw [← hindex]
    exact hreport

/-- How a run halts if no access goes through the reference 0, or no array variable is read before
it is assigned. -/
theorem halts_runOf (st : Stages s source a major?) (hcount : Countable (Stmt.listLengths source))
    (hfits : Fits s (endWorld (runOf s source console fuel)).history)
    (hrefs : Throughout NonNull (runOf s source console fuel) ∨
      AssignedFirst (formOf s.tier source).env (endWorld (runOf s source console fuel)).history)
    {why : Halt} {w : World} (hrun : runOf s source console fuel = .error why w) :
    ∃ nulls, Halts (regimeOf s source nulls) (startWorld s console fuel) why w := by
  have hlands {nulls : Prop} (hcareful : Careful (regimeOf s source nulls)
      (endWorld (runOf s source console fuel)).history) :
      Halts (regimeOf s source nulls) (startWorld s console fuel) why w := by
    have hlands := lands_runOf st hcount hcareful
    rw [hrun] at hlands
    cases hlands with
    | error hhalts => exact hhalts
  rcases hrefs with hnonNull | hassigned
  · exact ⟨True, hlands (careful_of_inOrder hfits (Or.inr hnonNull))⟩
  · exact ⟨False, hlands (careful_of_assignedFirst st hfits (covered_runOf st console fuel)
      hassigned)⟩

/-! ## Runs of the machine -/

theorem eq_error_of_ending {r : EStateM.Result Halt World Unit} {why : Halt}
    (h : ending r = .error why) : r = .error why (endWorld r) := by
  cases r with
  | ok => exact nomatch h
  | error =>
      obtain rfl := Except.error.inj h
      rfl

/-- How the machine ends, and with which console. -/
theorem ends_machine (st : Stages s source a major?) (console : Console) (fuel : Nat) :
    ((st.machine console).run fuel).1 = ending (runOf s source console fuel) ∧
      ((st.machine console).run fuel).2.host =
        (endWorld (runOf s source console fuel)).console := by
  obtain ⟨state, hagree, hmachine⟩ := st.run_eq console fuel
  rw [hmachine]
  exact ⟨rfl, hagree.console⟩

/-- A run that does not halt with a report reports nothing. -/
theorem stderr_runOf (h : ending (runOf s source console fuel) ≠ .error (.trap .unreachable)) :
    (endWorld (runOf s source console fuel)).console.stderr = console.stderr := by
  have hruns : Runs True True (runStmts (targetOf s) (formOf s.tier source).stmts) := inferInstance
  rw [runOf] at h ⊢
  apply (hruns.stderr_eq (startWorld s console fuel) ?_).trans
  · rfl
  · intro w' hrun
    rw [hrun] at h
    exact h rfl

/-- A run that halts with a report has reported nothing else. -/
theorem exists_report_runOf
    (h : ending (runOf s source console fuel) = .error (.trap .unreachable)) :
    ∃ message, (endWorld (runOf s source console fuel)).console.stderr =
      (console.report message).stderr := by
  have hruns : Runs True True (runStmts (targetOf s) (formOf s.tier source).stmts) := inferInstance
  have hrun : runStmts (targetOf s) (formOf s.tier source).stmts (startWorld s console fuel) =
      .error (.trap .unreachable) (endWorld (runOf s source console fuel)) :=
    eq_error_of_ending h
  obtain ⟨message, hreport⟩ := hruns.exists_report hrun
  exact ⟨message, hreport⟩

/-- A run that does not trap reports nothing.  A run that traps has either made one report, or
reported nothing since an access was out of bounds.  Unless arrays reach the last address or an
access goes through the reference 0, the report is one of the two messages, and an access is out of
bounds only if memory is exhausted. -/
theorem traps_diagnosed_unless_exhausted (hassemble : assemble s (some source) major? = .ok a)
    (hcount : Countable (Stmt.listLengths source)) (console : Console) (fuel : Nat) :
    ∃ m, Machine.load (some a.module) functions console = .ok m ∧
      m.runAccesses fuel = (endWorld (runOf s source console fuel)).accesses ∧
      ((m.run fuel).1 ≠ .error (.trap .unreachable) →
        (m.run fuel).2.host.stderr = console.stderr) ∧
      ((m.run fuel).1 = .error (.trap .unreachable) →
        ∃ message, (m.run fuel).2.host.stderr = (console.report message).stderr) ∧
      (Fits s (endWorld (runOf s source console fuel)).history →
        Throughout NonNull (runOf s source console fuel) ∨
          AssignedFirst (formOf s.tier source).env
            (endWorld (runOf s source console fuel)).history →
        ((m.run fuel).1 = .error (.trap .unreachable) →
          Diagnosed console (m.run fuel).2.host.stderr) ∧
        ∀ address, (m.run fuel).1 = .error (.trap (.outOfBounds address)) →
          Exhausted (memorySize s) address
            (endWorld (runOf s source console fuel)).history) := by
  obtain ⟨st⟩ := exists_stages hassemble
  obtain ⟨hending, hconsole⟩ := ends_machine st console fuel
  refine ⟨st.machine console, st.load_ok console, st.runAccesses_eq console fuel, ?_⟩
  rw [hending, hconsole]
  refine ⟨stderr_runOf, exists_report_runOf, fun hfits hrefs => ?_⟩
  constructor
  · intro hend
    obtain ⟨nulls, hhalts⟩ := halts_runOf st hcount hfits hrefs (eq_error_of_ending hend)
    exact hhalts.diagnosed
  · intro address hend
    obtain ⟨nulls, hhalts⟩ := halts_runOf st hcount hfits hrefs (eq_error_of_ending hend)
    exact hhalts.exhausted address rfl

end

/-- A program that prints the elements of an array and one more. -/
def overrun : List Stmt :=
  [.assign "a" (.arrayLit (.array .int) .int [.int .int 5, .int .int 6]),
    .assign "i" (.int .int 0),
    .whileDo (.binary .bool .le (.var .int "i")
        (.call .int Builtin.len.text [.var (.array .int) "a"]))
      [.expr (.call .void Builtin.print.text
          [.index .int (.var (.array .int) "a") (.var .int "i")]),
        .assign "i" (.binary .int .add (.var .int "i") (.int .int 1))]]

/-- The index behind the last element is reported. -/
theorem overrun_diagnosed :
    ∃ a m, assemble .standard (some overrun) = .ok a ∧
      Machine.load (some a.module) functions {} = .ok m ∧
      (m.run 10).1 = .error (.trap .unreachable) ∧
      Diagnosed {} (m.run 10).2.host.stderr := by
  obtain ⟨a, ⟨st⟩⟩ : ∃ a, Nonempty (Stages .standard overrun a) :=
    exists_stages_of_check (by decide) (by decide) (by decide) rfl
  have hcount : Countable (Stmt.listLengths overrun) := by decide
  have hnonNull : Throughout NonNull (runOf .standard overrun {} 10) := by
    rw [Throughout]
    decide +kernel
  have hending : ending (runOf .standard overrun {} 10) = .error (.trap .unreachable) := by
    decide +kernel
  obtain ⟨m, hload, -, -, -, htraps⟩ :=
    traps_diagnosed_unless_exhausted st.assemble_eq hcount {} 10
  have hmachine : (m.run 10).1 = .error (.trap .unreachable) := by
    obtain rfl := Except.ok.inj (hload.symm.trans (st.load_ok {}))
    exact (ends_machine st {} 10).1.trans hending
  obtain ⟨hdiagnosed, -⟩ := htraps (Or.inl (by decide)) (Or.inl hnonNull)
  exact ⟨a, m, st.assemble_eq, hload, hmachine, hdiagnosed hmachine⟩

/-! ## Memory that is exhausted -/

/-- Settings with one page of memory, and arrays that may take all of it. -/
def onePage : Settings := { Settings.standard with maxArrayBytes := 65508, memoryPages := 1 }

/-- A program that makes an array which takes all memory, and then another one. -/
def hoard : List Stmt :=
  [.assign "a" (.arrayFill (.array .bool) (.int .int 16377) (.bool .bool false)),
    .assign "b" (.arrayLit (.array .int) .int [.int .int 1])]

/-- After the first statement there is no room left. -/
theorem hoard_fills_memory :
    ∃ w, runStmt (targetOf onePage)
        (.assign "a" (.arrayFill (.array .bool) (.int .int 16377) (.bool .bool false)))
        (startWorld onePage {} 16378) = .ok () w ∧
      w.frontier = 65536 ∧ w.memory.size = 65536 := by
  -- The world has a name, since it is too large to be computed.
  obtain ⟨w, hw⟩ : ∃ w, w = startWorld onePage {} 16378 := ⟨_, rfl⟩
  have hmemory : w.memory.size = 65536 := by
    rw [hw, size_startWorld]
    rfl
  have hfrontier : w.frontier = 24 := by
    rw [hw]
    rfl
  have hfuel : w.fuel = 16378 := by
    rw [hw]
    rfl
  have hstop : (⟨24, 16377, .bool⟩ : Extent).stop = 65536 := by decide
  have heval : evalExpr (targetOf onePage)
      (.arrayFill (.array .bool) (.int .int 16377) (.bool .bool false)) =
        makeFill (targetOf onePage) .bool 16377 0 := by
    simp only [evalExpr, pure_bind]
    rfl
  have hroom : Room w ⟨24, 16377, .bool⟩ :=
    ⟨.bool, hfrontier.symm, by rw [hstop, hmemory], by decide⟩
  obtain ⟨v, w₁, hfill, hadds⟩ | ⟨_, -, hcanceled⟩ :=
    hroom.makeFill_cases (t := targetOf onePage) 16377 0 (by decide) rfl
  case inr =>
    rw [hfuel] at hcanceled
    exact absurd hcanceled (by decide)
  have hsize := memory_size (makeFill (targetOf onePage) .bool 16377 0) w
  rw [hfill, hmemory] at hsize
  rw [← hw]
  refine ⟨w₁.assign "a" v, ?_, UInt32.toNat_inj.mp (hadds.frontier.trans hstop), hsize⟩
  rw [runStmt, heval, run_bind_ok _ hfill, run_assignVar]

theorem ending_hoard :
    ending (runOf onePage hoard {} 16378) = .error (.trap (.outOfBounds 65536)) := by
  obtain ⟨w, hfirst, hfrontier, hsize⟩ := hoard_fills_memory
  have hfits : fits (targetOf onePage) (Int64.ofNat [(1 : UInt64)].length).toUInt64 .int = true := by
    decide
  have hfull : w.memory.size < w.frontier.toNat + Layout.headerSize := by
    rw [hsize, hfrontier]
    decide
  have heval : evalExpr (targetOf onePage) (.arrayLit (.array .int) .int [.int .int 1]) =
      makeList (targetOf onePage) .int [1] := by
    simp only [evalExpr, evalExprs, pure_bind]
    rfl
  obtain ⟨w', hlist⟩ := makeList_of_full hfits hfull
  rw [hfrontier] at hlist
  have hsecond : runStmt (targetOf onePage)
      (.assign "b" (.arrayLit (.array .int) .int [.int .int 1])) w =
        .error (.trap (.outOfBounds 65536)) w' := by
    rw [runStmt, heval, run_bind_error _ hlist]
  have hform : (formOf onePage.tier hoard).stmts = hoard := rfl
  rw [runOf, hform, hoard, runStmts, run_bind_ok _ hfirst, runStmts, run_bind_error _ hsecond]
  rfl

/-- The run of an assembled program traps although nothing was reported. -/
theorem hoard_not_diagnosed :
    ∃ a m, assemble onePage (some hoard) = .ok a ∧
      Machine.load (some a.module) functions {} = .ok m ∧
      (m.run 16378).1 = .error (.trap (.outOfBounds 65536)) ∧
      (m.run 16378).2.host.stderr = #[] := by
  obtain ⟨a, ⟨st⟩⟩ : ∃ a, Nonempty (Stages onePage hoard a) :=
    exists_stages_of_check (by decide) (by decide) (by decide) rfl
  obtain ⟨hend, hconsole⟩ := ends_machine st {} 16378
  have hsilent : ending (runOf onePage hoard {} 16378) ≠ .error (.trap .unreachable) := by
    rw [ending_hoard]
    decide
  refine ⟨a, st.machine {}, st.assemble_eq, st.load_ok {}, hend.trans ending_hoard, ?_⟩
  rw [hconsole]
  exact stderr_runOf hsilent

end ArrayLang.Reference
