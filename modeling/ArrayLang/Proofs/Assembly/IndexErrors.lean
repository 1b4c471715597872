import ArrayLang.Proofs.Assembly.Success
import ArrayLang.Proofs.NormalForm.Places

/-!
# Index errors of assembled programs

When an assembled program comes to an index assignment whose index is out of range, it first runs the
statements that the value needs.  If these end, it reports an index error.  So nothing of the value
is evaluated if the value is in normal form, but parts of it may be evaluated otherwise.
-/

namespace ArrayLang.Assembly

open Source Code Typing NormalForm Machine Host Reference

/-- A run of the machine halted for a reason, and left what a world says. -/
structure StopsIn (env : Env) (why : Halt) (w : World) (r : Except Halt Unit × Machine Console) :
    Prop where
  ended : r.1 = .error why
  memory : r.2.memory = w.memory
  frontier : r.2.globals.get frontierName = w.frontier.toUInt64
  console : r.2.host = w.console
  vars : ∀ name ty, env.find? name = some ty → r.2.locals.get name = w.vars name

/-- A run of the machine reported an index error in a world, and did nothing else. -/
def ReportsIndex (env : Env) (w : World) (r : Except Halt Unit × Machine Console) : Prop :=
  StopsIn env (.trap .unreachable) (reported w indexMessage) r

/-- Memory, the frontier and the console are the same in two worlds. -/
def Untouched (w w' : World) : Prop :=
  w.memory = w'.memory ∧ w.frontier = w'.frontier ∧ w.console = w'.console

section

variable {s : Settings} {source : List Stmt} {a : Assembled} {major? : String → Option String}
  {env : Env} {why why' : Halt} {w w' : World} {r : Except Halt Unit × Machine Console}

/-- A run halts for one reason and leaves one state. -/
theorem StopsIn.iff_untouched (h : StopsIn env why w r)
    (hvars : ∀ name ty, env.find? name = some ty → w.vars name = w'.vars name) :
    StopsIn env why' w' r ↔ why = why' ∧ Untouched w w' := by
  constructor
  · intro h'
    refine ⟨Except.error.inj (h.ended.symm.trans h'.ended), h.memory.symm.trans h'.memory, ?_,
      h.console.symm.trans h'.console⟩
    exact UInt32.toUInt64_inj.mp (h.frontier.symm.trans h'.frontier)
  · rintro ⟨rfl, hmemory, hfrontier, hconsole⟩
    refine ⟨h.ended, h.memory.trans hmemory, ?_, h.console.trans hconsole, ?_⟩
    · rw [← hfrontier]
      exact h.frontier
    · intro name ty hfind
      rw [← hvars name ty hfind]
      exact h.vars name ty hfind

theorem report_inj {c c' : Console} {message : List UInt8}
    (h : c.report message = c'.report message) : c = c' := by
  have hinput : (c.report message).input = (c'.report message).input := by rw [h]
  have hstdout : (c.report message).stdout = (c'.report message).stdout := by rw [h]
  have hstderr : (c.report message).stderr = (c'.report message).stderr := by rw [h]
  cases c
  cases c'
  rw [Console.mk.injEq]
  exact ⟨hinput, hstdout, (Array.append_left_inj _).mp hstderr⟩

theorem untouched_reported (msg : Emit.Message) :
    Untouched (reported w msg) (reported w' msg) ↔ Untouched w w' := by
  constructor
  · rintro ⟨hmemory, hfrontier, hconsole⟩
    have hmemory' : w.memory = w'.memory := hmemory
    refine ⟨hmemory', hfrontier, ?_⟩
    rw [reported, reported, hmemory'] at hconsole
    exact report_inj hconsole
  · rintro ⟨hmemory, hfrontier, hconsole⟩
    refine ⟨hmemory, hfrontier, ?_⟩
    rw [reported, reported, hmemory, hconsole]

theorem StopsIn.reported_iff {msg : Emit.Message} (h : StopsIn env why (reported w msg) r)
    (hvars : ∀ name ty, env.find? name = some ty → w.vars name = w'.vars name) :
    StopsIn env why (reported w' msg) r ↔ Untouched w w' := by
  have hvars' : ∀ name ty, env.find? name = some ty →
      (reported w msg).vars name = (reported w' msg).vars name := hvars
  rw [h.iff_untouched hvars', untouched_reported, and_iff_right rfl]

theorem StopsIn.of_alike (h : StopsIn env why w r) (henv : EnvOk env)
    (halike : Alike (fun x => ¬IsTemp x) w' w) : StopsIn env why w' r := by
  refine ⟨h.ended, h.memory.trans halike.memory.symm, ?_, h.console.trans halike.console.symm, ?_⟩
  · rw [halike.frontier]
    exact h.frontier
  · intro name ty hfind
    rw [halike.vars name (not_isTemp_of_find? henv hfind)]
    exact h.vars name ty hfind

theorem Stages.stopsIn (st : Stages s source a major?) (harray : s.tier.admits .array = true)
    {console : Console} {fuel : Nat} (hrun : runOf s source console fuel = .error why w) :
    StopsIn (formOf s.tier source).env why w ((st.machine console).run fuel) := by
  obtain ⟨state, hagree, hmachine⟩ := st.run_eq console fuel
  rw [hrun] at hagree hmachine
  rw [hmachine]
  refine ⟨rfl, hagree.memory, hagree.frontier harray, hagree.console, ?_⟩
  intro name ty hfind
  obtain ⟨hne, hne'⟩ := ne_scratch st.envOk st.tempsOk
    (extends_append _ (formOf s.tier source).temporaries name ty hfind)
  exact hagree.vars name hne hne'

theorem Stages.checked_eq (st : Stages s source a major?) {checked : List Stmt}
    (hcheck : check s.tier (some source) = .ok (env, checked)) :
    (formOf s.tier source).env = env ∧ st.checked = checked :=
  Prod.mk.inj (Except.ok.inj (st.check_ok.symm.trans hcheck))

/-- The report of an index error, where the messages are as at the start. -/
theorem reported_index (h : w.memory.read 0 heapStart = messageBytes) :
    (reported w indexMessage).console = w.console.report (Text.bytesOfText indexText) := by
  rw [← (read_messages h).2]
  rfl

/-- The index message lies in memory at every boundary. -/
theorem Stages.message_fits (st : Stages s source a major?) {console : Console} {fuel : Nat}
    {left : List Stmt}
    (h : Passes (targetOf s) (formOf s.tier source).stmts (startWorld s console fuel) left w) :
    indexMessage.offset.toUInt32.toNat + indexMessage.length.toUInt32.toNat ≤ w.memory.size := by
  have hmessage : indexMessage.offset.toUInt32.toNat + indexMessage.length.toUInt32.toNat =
      heapStart := by decide
  rw [hmessage, h.memory_size, size_startWorld]
  exact st.heapStart_le

section

variable {array index value : Expr} {checked rest : List Stmt}

/-- What a run does that comes to an index assignment.  After the array and the index come the
statements `own` that the value needs, and they do not change the variables of the source. -/
theorem Stages.run_at_place (st : Stages s source a major?) {console : Console} {fuel : Nat}
    {left : List Stmt} {x n : UInt64} {w₁ : World}
    (hstmt : Within (.indexAssign array index value :: rest) st.checked)
    (hplace : IsPlace (.indexAssign array index value) left)
    (hpasses : Passes (targetOf s) (formOf s.tier source).stmts (startWorld s console fuel) left w)
    (heval : evalExprs (targetOf s) [array, index] w = .ok [x, n] w₁)
    (hfair : Throughout Fair (evalExprs (targetOf s) [array, index] w)) :
    ∃ T T' own value' w₀, Prepares T [value] own [value'] T' ∧
      Alike (fun x => ¬IsTemp x) w₁ w₀ ∧
      (∀ name ty, (formOf s.tier source).env.find? name = some ty →
        (endWorld (runStmts (targetOf s) own w₀)).vars name = w₁.vars name) ∧
      (∀ why w₂, runStmts (targetOf s) own w₀ = .error why w₂ →
        StopsIn (formOf s.tier source).env why w₂ ((st.machine console).run fuel)) ∧
      ∀ w₂, runStmts (targetOf s) own w₀ = .ok () w₂ → OutOfRange w₂.memory x n →
        ReportsIndex (formOf s.tier source).env w₂ ((st.machine console).run fuel) := by
  have htyped := hstmt.typed (check_sound st.check_ok).2
  obtain ⟨T, T', own, more, hT, hnorm, rfl⟩ := hplace
  have harray : s.tier.admits .array = true := by
    cases htyped with
    | indexAssign harray => exact harray
  obtain ⟨T₁, T₂, own, value', w₀, hprep, halike, hrun⟩ :=
    hnorm.run_indexAssign st.envOk hT htyped heval hfair
  refine ⟨T₁, T₂, own, value', w₀, hprep, halike, ?_, ?_, ?_⟩
  · intro name ty hfind
    have hname := not_isTemp_of_find? st.envOk hfind
    rw [halike.vars name hname]
    exact hprep.leaves (fun hbetween => hname hbetween.isTemp) w₀
  · intro why w₂ hown
    exact st.stopsIn harray (hpasses.error ((hrun more).1 why w₂ hown))
  · intro w₂ hown hout
    have hsize : w₂.memory.size = w.memory.size := by
      have hown' := memory_size (runStmts (targetOf s) own) w₀
      have heval' := memory_size (evalExprs (targetOf s) [array, index]) w
      rw [hown] at hown'
      rw [heval] at heval'
      exact hown'.trans ((congrArg Memory.size halike.memory.symm).trans heval')
    obtain ⟨w₃, halike₃, hleft⟩ :=
      (hrun more).2 w₂ hown hout (hsize ▸ st.message_fits hpasses)
    exact (st.stopsIn harray (hpasses.error hleft)).of_alike st.envOk
      (halike₃.mono fun _ _ => trivial)

/-- Every index assignment of a program has a place in the normal form.  Assume that the run of the
assembled program comes to such a place, that the array and the index have values there, and that
the index is out of range.  If the value is in normal form, the run reports an index error and does
nothing else.  In general, the statements `own` that the value needs are run before the index is
checked, and nothing else is done exactly if they do nothing or report an index error themselves. -/
theorem index_checked_before_value (hassemble : assemble s (some source) major? = .ok a)
    (hcheck : check s.tier (some source) = .ok (env, checked))
    (hstmt : Within (.indexAssign array index value :: rest) checked) :
    (∃ left, Within left (formOf s.tier source).stmts ∧
      IsPlace (.indexAssign array index value) left) ∧
    ∀ console fuel, ∃ m, Machine.load (some a.module) functions console = .ok m ∧
      ∀ left w w₁ x n, IsPlace (.indexAssign array index value) left →
        Passes (targetOf s) (formOf s.tier source).stmts (startWorld s console fuel) left w →
        evalExprs (targetOf s) [array, index] w = .ok [x, n] w₁ →
        Throughout Fair (evalExprs (targetOf s) [array, index] w) →
        OutOfRange w₁.memory x n →
        (value.isNormal = true → ReportsIndex env w₁ (m.run fuel)) ∧
        (ReportsIndex env w₁ (m.run fuel) → w₁.memory.read 0 heapStart = messageBytes →
          (m.run fuel).2.host = w₁.console.report (Text.bytesOfText indexText)) ∧
        ∃ T T' own value' w₀, Prepares T [value] own [value'] T' ∧
          Alike (fun x => ¬IsTemp x) w₁ w₀ ∧
          (∀ why w₂, runStmts (targetOf s) own w₀ = .error why w₂ →
            StopsIn env why w₂ (m.run fuel) ∧
              (ReportsIndex env w₁ (m.run fuel) ↔
                why = .trap .unreachable ∧ Untouched w₂ (reported w₁ indexMessage))) ∧
          ∀ w₂, runStmts (targetOf s) own w₀ = .ok () w₂ → OutOfRange w₂.memory x n →
            ReportsIndex env w₂ (m.run fuel) ∧
              (ReportsIndex env w₁ (m.run fuel) ↔ Untouched w₂ w₁) := by
  obtain ⟨st⟩ := exists_stages hassemble
  obtain ⟨rfl, rfl⟩ := st.checked_eq hcheck
  constructor
  · obtain ⟨T, hnorm, -⟩ := st.normalizes
    exact hnorm.exists_place Temps.ordered_empty hstmt
  · refine fun console fuel => ⟨st.machine console, st.load_ok console, ?_⟩
    intro left w w₁ x n hplace hpasses heval hfair hout
    obtain ⟨T, T', own, value', w₀, hprep, halike, hvars, herror, hok⟩ :=
      st.run_at_place hstmt hplace hpasses heval hfair
    refine ⟨?_, ?_, T, T', own, value', w₀, hprep, halike, ?_, ?_⟩
    · intro hnormal
      obtain rfl := hprep.eq_nil_iff.1.mpr (by simp [Expr.listNormal, hnormal])
      have hown : runStmts (targetOf s) [] w₀ = .ok () w₀ := by rw [runStmts, run_pure]
      exact (hok w₀ hown (halike.memory ▸ hout)).of_alike st.envOk
        (reported_alike halike indexMessage)
    · intro hreports hmessages
      exact hreports.console.trans (reported_index hmessages)
    · intro why w₂ hown
      rw [hown] at hvars
      exact ⟨herror why w₂ hown, (herror why w₂ hown).iff_untouched hvars⟩
    · intro w₂ hown hout₂
      rw [hown] at hvars
      exact ⟨hok w₂ hown hout₂, (hok w₂ hown hout₂).reported_iff hvars⟩

end

end

/-- A program that makes an array of one element and assigns a value at index 5. -/
def stray (value : Expr) : List Stmt :=
  [.assign "a" (.arrayLit (.array .int) .int [.int .int 1]),
    .indexAssign (.var (.array .int) "a") (.int .int 5) value]

/-- A number from the console. -/
def askInt : Expr := .call .int Builtin.inputInt.text []

/-- No number is asked for if it cannot be stored. -/
theorem index_checked_before_askInt :
    ∃ a m, assemble .standard (some (stray askInt)) = .ok a ∧
      Machine.load (some a.module) functions {} = .ok m ∧
      (m.run 0).1 = .error (.trap .unreachable) ∧
      (m.run 0).2.host = Console.report {} (Text.bytesOfText indexText) ∧
      (m.run 0).2.globals.get frontierName = 36 := by
  obtain ⟨a, ⟨st⟩⟩ : ∃ a, Nonempty (Stages .standard (stray askInt) a) :=
    exists_stages_of_check (by decide) (by decide) (by decide) rfl
  have hcheck : check Settings.standard.tier (some (stray askInt)) =
      .ok ([⟨"a", .array .int⟩], stray askInt) := rfl
  obtain ⟨-, hruns⟩ := index_checked_before_value st.assemble_eq hcheck (.later .here)
  obtain ⟨m, hload, hrun⟩ := hruns {} 0
  let array : Expr := .var (.array .int) "a"
  let index : Expr := .int .int 5
  have hplace : IsPlace (.indexAssign array index askInt) [.indexAssign array index askInt] := by
    have hnorm : Normalizes {} [.indexAssign array index askInt]
        ([] ++ [] ++ [] ++ [.indexAssign array index askInt]) {} :=
      .indexAssign (.snoc (.atom rfl) (.atom rfl)) (.keep rfl (.keep rfl .nil))
        (.node .call .nil) .nil
    exact ⟨{}, {}, _, [], Temps.ordered_empty, hnorm, rfl⟩
  -- The world is named, so that it is not computed again and again.
  obtain ⟨w, hfirst, hvalues, hfair, hout, hmessages, hconsole, hfrontier⟩ :
      ∃ w, runStmt (targetOf .standard) (.assign "a" (.arrayLit (.array .int) .int [.int .int 1]))
          (startWorld .standard {} 0) = .ok () w ∧
        [array, index].map (atomValue w.vars) = [24, 5] ∧
        Throughout Fair (evalExprs (targetOf .standard) [array, index] w) ∧
        OutOfRange w.memory 24 5 ∧ w.memory.read 0 heapStart = messageBytes ∧ w.console = {} ∧
        w.frontier = 36 :=
    ⟨_, eq_ok_of_ending (by decide +kernel), by decide +kernel, by decide +kernel,
      by decide +kernel, by decide +kernel, rfl, by decide +kernel⟩
  have hatomic : [array, index].all Expr.isAtomic = true := rfl
  have heval := evalExprs_atoms (targetOf .standard) w hatomic
  rw [hvalues] at heval
  have hform : (formOf Settings.standard.tier (stray askInt)).stmts = stray askInt := rfl
  have hpasses : Passes (targetOf .standard) (stray askInt) (startWorld .standard {} 0)
      [.indexAssign array index askInt] w := .after hfirst (.here _ _)
  rw [← hform] at hpasses
  obtain ⟨hnormal, htext, -⟩ := hrun _ w _ 24 5 hplace hpasses heval hfair hout
  have hstops := hnormal rfl
  refine ⟨a, m, st.assemble_eq, hload, hstops.ended, ?_, ?_⟩
  · rw [← hconsole]
    exact htext hstops hmessages
  · rw [hstops.frontier, frontier_reported]
    exact (congrArg UInt32.toUInt64 hfrontier).trans (by decide)

/-- An element of an array that is made where it is used. -/
def pick (index : Expr) : Expr := .index .int (.arrayLit (.array .int) .int [.int .int 7]) index

/-- Values that are not in normal form are evaluated in part although the index is out of range: an
array is made, or a number is asked for and the run ends with a failure to read it. -/
theorem value_evaluated_before_index_check :
    (∃ w, runStmts (targetOf .standard) (stray (pick (.int .int 0))) (startWorld .standard {} 0) =
        .error (.trap .unreachable) w ∧ w.frontier = 36) ∧
      (∃ a m, assemble .standard (some (stray (pick (.int .int 0)))) = .ok a ∧
        Machine.load (some a.module) functions {} = .ok m ∧
        (m.run 0).1 = .error (.trap .unreachable) ∧
        (m.run 0).2.globals.get frontierName = 48) ∧
      (∃ w, runStmts (targetOf .standard) (stray (pick askInt)) (startWorld .standard {} 0) =
        .error (.trap .unreachable) w ∧
        w.console = Console.report {} (Text.bytesOfText indexText)) ∧
      ∃ a m, assemble .standard (some (stray (pick askInt))) = .ok a ∧
        Machine.load (some a.module) functions {} = .ok m ∧
        (m.run 0).1 ≠ .error (.trap .unreachable) ∧ (m.run 0).2.host.stderr = #[] := by
  refine ⟨⟨_, rfl, by decide +kernel⟩, ?_, ⟨_, rfl, rfl⟩, ?_⟩
  · obtain ⟨a, ⟨st⟩⟩ : ∃ a, Nonempty (Stages .standard (stray (pick (.int .int 0))) a) :=
      exists_stages_of_check (by decide) (by decide) (by decide) rfl
    obtain ⟨state, hagree, hrun⟩ := st.run_eq {} 0
    have hend : ending (runOf .standard (stray (pick (.int .int 0))) {} 0) =
        .error (.trap .unreachable) := by decide +kernel
    have hfrontier :
        (endWorld (runOf .standard (stray (pick (.int .int 0))) {} 0)).frontier = 48 := by
      decide +kernel
    refine ⟨a, st.machine {}, st.assemble_eq, st.load_ok {}, ?_, ?_⟩
    · rw [hrun, hend]
    · rw [hrun]
      refine (hagree.frontier rfl).trans ?_
      rw [hfrontier]
      decide
  · obtain ⟨a, ⟨st⟩⟩ : ∃ a, Nonempty (Stages .standard (stray (pick askInt)) a) :=
      exists_stages_of_check (by decide) (by decide) (by decide) rfl
    obtain ⟨state, hagree, hrun⟩ := st.run_eq {} 0
    have hend : ending (runOf .standard (stray (pick askInt)) {} 0) ≠
        .error (.trap .unreachable) := by decide +kernel
    have hconsole :
        (endWorld (runOf .standard (stray (pick askInt)) {} 0)).console.stderr = #[] := by
      decide +kernel
    refine ⟨a, st.machine {}, st.assemble_eq, st.load_ok {}, ?_, ?_⟩
    · rw [hrun]
      exact hend
    · rw [hrun, stopped, hagree.console]
      exact hconsole

end ArrayLang.Assembly
