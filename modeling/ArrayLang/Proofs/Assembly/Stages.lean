import ArrayLang.Assembly
import ArrayLang.Proofs.Emit.Correct
import ArrayLang.Proofs.Machine.Words
import ArrayLang.Proofs.NormalForm.Temporaries

/-!
# Assembled programs

A program that was assembled went through all the stages, so it is code for a well-typed normal form.
The machine that runs it starts in a state that agrees with the world in which the reference
semantics starts.
-/

namespace ArrayLang.Assembly

open Source Code Typing NormalForm Machine Host Reference

/-! ## The normal form of a program -/

/-- A program in normal form with the types of its variables, and its temporaries. -/
structure Form where
  env : Env := []
  stmts : List Stmt := []
  temporaries : List Binding := []

/-- The types of the variables and the temporaries. -/
def Form.types (f : Form) : Env := f.env ++ f.temporaries

/-- The normal form of a program; it is empty if the program has none. -/
def formOf (tier : Tier) (source : List Stmt) : Form :=
  match check tier (some source) with
  | .error _ => {}
  | .ok (env, checked) =>
    match normalize env (some checked) with
    | .error _ => {}
    | .ok (stmts, temporaries) => ⟨env, stmts, temporaries⟩

theorem formOf_eq {tier : Tier} {source checked stmts : List Stmt} {env : Env}
    {temporaries : List Binding} (hcheck : check tier (some source) = .ok (env, checked))
    (hnormalize : normalize env (some checked) = .ok (stmts, temporaries)) :
    formOf tier source = ⟨env, stmts, temporaries⟩ := by
  rw [formOf, hcheck]
  simp only
  rw [hnormalize]

/-! ## Names of variables -/

theorem not_isTemp_arraySlot : ¬IsTemp Emit.arraySlot := by
  rintro ⟨n, hname⟩
  have hlist := congrArg String.toList hname
  rw [toList_tempName] at hlist
  exact absurd hlist (by simp [Emit.arraySlot])

theorem not_isTemp_cursorSlot : ¬IsTemp Emit.cursorSlot := by
  rintro ⟨n, hname⟩
  have hlist := congrArg String.toList hname
  rw [toList_tempName] at hlist
  exact absurd hlist (by simp [Emit.cursorSlot])

section

variable {tier : Tier} {env : Env} {temps : List Binding} {name : String} {ty : Ty}

/-- What is no variable of the source is a temporary. -/
theorem isTemp_of_find? (htemps : TempsOk temps) (h : Env.find? (env ++ temps) name = some ty)
    (hsource : env.find? name = none) : IsTemp name := by
  rw [Typing.find?_append, hsource, Option.none_or] at h
  exact htemps.name _ (mem_of_find? h)

/-- No variable is kept in a scratch slot. -/
theorem ne_scratch (henv : EnvOk env) (htemps : TempsOk temps)
    (h : Env.find? (env ++ temps) name = some ty) :
    name ≠ Emit.arraySlot ∧ name ≠ Emit.cursorSlot := by
  have hne {slot : String} (hvariable : isVariableName slot = false) (htemp : ¬IsTemp slot) :
      name ≠ slot := by
    rintro rfl
    cases hsource : env.find? name with
    | some ty' =>
        have hname := henv.name name ty' hsource
        exact absurd (hname.symm.trans hvariable) (by simp)
    | none => exact htemp (isTemp_of_find? htemps h hsource)
  exact ⟨hne rfl not_isTemp_arraySlot, hne rfl not_isTemp_cursorSlot⟩

theorem noScratch_of_typed {stmts : List Stmt} (henv : EnvOk env) (htemps : TempsOk temps)
    (htyped : ∀ s ∈ stmts, StmtTyped tier (env ++ temps) s) :
    NoScratch (Stmt.listNames stmts) := by
  have hname : ∀ x ∈ Stmt.listNames stmts, x ≠ Emit.arraySlot ∧ x ≠ Emit.cursorSlot := by
    intro x hx
    obtain ⟨s, hs, hx'⟩ := Stmt.mem_listNames.mp hx
    obtain ⟨ty, hfind⟩ := find?_of_mem_stmtNames (htyped s hs) x hx'
    exact ne_scratch henv htemps hfind
  exact ⟨fun h => (hname _ h).1 rfl, fun h => (hname _ h).2 rfl⟩

end

/-! ## Stages -/

/-- The stages through which a program was assembled, and that none of them failed. -/
structure Stages (s : Settings) (source : List Stmt) (a : Assembled)
    (major? : String → Option String := Text.majorVersion?) where
  checked : List Stmt
  body : Block
  progress : Emit.Progress
  vars : List Local
  temps : List Local
  settings_ok : s.validate major? = .ok ()
  check_ok : check s.tier (some source) = .ok ((formOf s.tier source).env, checked)
  normalize_ok : normalize (formOf s.tier source).env (some checked) =
    .ok ((formOf s.tier source).stmts, a.temporaries)
  memory_ok : memoryTooSmall s = false
  target_ok : (targetOf s).validate = .ok ()
  emit_ok : (Emit.stmts (targetOf s) (formOf s.tier source).stmts).run {} = (.ok body, progress)
  vars_ok : slots .untypedVariable (Env.sorted (formOf s.tier source).env) = .ok vars
  temps_ok : slots .untypedTemporary a.temporaries = .ok temps
  module_eq : a.module = moduleOf s (vars ++ temps ++ progress.scratchLocals) body
  module_ok : a.module.validate = .ok ()

theorem ok_of_mapError {ε ε' α : Type} {f : ε → ε'} {x : Except ε α} {a : α}
    (h : x.mapError f = .ok a) : x = .ok a := by
  cases x with
  | error e => cases h
  | ok b =>
      cases h
      rfl

theorem exists_source {s : Settings} {program : Option (List Stmt)} {a : Assembled}
    {major? : String → Option String} (h : assemble s program major? = .ok a) :
    ∃ source, program = some source := by
  cases program with
  | some source => exact ⟨source, rfl⟩
  | none =>
      obtain ⟨_, -, h⟩ := ok_of_bind h
      obtain ⟨_, hcheck, -⟩ := ok_of_bind h
      exact absurd (ok_of_mapError hcheck) (by simp [check])

/-- Whatever is assembled went through the stages. -/
theorem exists_stages {s : Settings} {source : List Stmt} {a : Assembled}
    {major? : String → Option String} (h : assemble s (some source) major? = .ok a) :
    Nonempty (Stages s source a major?) := by
  rw [assemble] at h
  obtain ⟨_, hsettings, h⟩ := ok_of_bind h
  obtain ⟨⟨env, checked⟩, hcheck, h⟩ := ok_of_bind h
  obtain ⟨⟨stmts, temporaries⟩, hnormalize, h⟩ := ok_of_bind h
  have hcheck' := ok_of_mapError hcheck
  have hnormalize' := ok_of_mapError hnormalize
  have hform := formOf_eq hcheck' hnormalize'
  cases hmemory : memoryTooSmall s with
  | true =>
      rw [hmemory] at h
      cases h
  | false =>
      rw [hmemory] at h
      obtain ⟨_, htarget, h⟩ := ok_of_bind h
      cases hemit : (Emit.stmts (targetOf s) stmts).run {} with
      | mk code progress =>
          rw [hemit] at h
          obtain ⟨body, hbody, h⟩ := ok_of_bind h
          obtain ⟨vars, hvars, h⟩ := ok_of_bind h
          obtain ⟨temps, htemps, h⟩ := ok_of_bind h
          obtain ⟨_, hmodule, h⟩ := ok_of_bind h
          obtain rfl := Except.ok.inj h
          rw [ok_of_mapError hbody] at hemit
          refine ⟨⟨checked, body, progress, vars, temps, ok_of_mapError hsettings, ?_, ?_, hmemory,
            ok_of_mapError htarget, ?_, ?_, htemps, rfl, ok_of_mapError hmodule⟩⟩
          · rwa [hform]
          · rwa [hform]
          · rwa [hform]
          · rwa [hform]

/-- What went through the stages is assembled. -/
theorem Stages.assemble_eq {s : Settings} {source : List Stmt} {a : Assembled}
    {major? : String → Option String} (st : Stages s source a major?) :
    assemble s (some source) major? = .ok a := by
  have hbind {α β : Type} {x : Except Error α} {f : α → Except Error β} {b : α} (h : x = .ok b) :
      x >>= f = f b := by
    rw [h]
    rfl
  have hmap {ε α : Type} {x : Except ε α} {f : ε → Error} {b : α} (h : x = .ok b) :
      x.mapError f = .ok b := by
    rw [h]
    rfl
  have hmodule := st.module_ok
  rw [st.module_eq] at hmodule
  rw [assemble, hbind (hmap st.settings_ok), hbind (hmap st.check_ok)]
  dsimp only
  rw [hbind (hmap st.normalize_ok)]
  dsimp only
  rw [st.memory_ok, if_neg Bool.false_ne_true, hbind (hmap st.target_ok), st.emit_ok]
  dsimp only
  rw [hbind (hmap rfl), hbind st.vars_ok, hbind st.temps_ok, hbind (hmap hmodule), ← st.module_eq]
  rfl

theorem tier_eq_array {s : Settings} (h : s.tier.admits .array = true) : s.tier = .array := by
  rw [Settings.tier] at h ⊢
  split
  · rw [if_pos (by assumption)] at h
    exact absurd h (by decide)
  · rfl

theorem admits_loop (s : Settings) : s.tier.admits .loop = true := by
  rw [Settings.tier]
  split <;> decide

/-- The segments of a valid module lie in its memory. -/
theorem fits_of_validate {m : Module} (h : m.validate = .ok ()) :
    ∀ segment ∈ m.data, segment.fits m.memory.size = true := by
  rw [Module.validate] at h
  by_cases hentry : (m.func? m.entry).isNone = true
  · rw [if_pos hentry] at h
    cases h
  · rw [if_neg hentry] at h
    cases hrepeat : firstRepeat? [] (m.globals.map Global.name) with
    | some name =>
        rw [hrepeat] at h
        cases h
    | none =>
        rw [hrepeat] at h
        cases hfind : m.data.find? fun segment => !segment.fits m.memory.size with
        | some segment =>
            simp only [hfind] at h
            cases h
        | none =>
            intro segment hsegment
            simpa using List.find?_eq_none.mp hfind segment hsegment

/-! ## The start of a run -/

/-- The number of bytes of the memory. -/
def memorySize (s : Settings) : Nat := s.memoryPages.toNat * pageSize

/-- The world in which a program starts. -/
def startWorld (s : Settings) (console : Console) (fuel : Nat) : World where
  vars _ := 0
  memory := (Memory.zeros (memorySize s)).write 0 messageBytes
  frontier := UInt32.ofNat heapStart
  console
  fuel
  history := []

/-- The run of a program in the reference semantics. -/
def runOf (s : Settings) (source : List Stmt) (console : Console) (fuel : Nat) :
    EStateM.Result Halt World Unit :=
  runStmts (targetOf s) (formOf s.tier source).stmts (startWorld s console fuel)

/-- How a run ends. -/
def ending {α : Type} : EStateM.Result Halt World α → Except Halt Unit
  | .ok _ _ => .ok ()
  | .error why _ => .error why

theorem eq_ok_of_ending {r : EStateM.Result Halt World Unit} (h : ending r = .ok ()) :
    r = .ok () (endWorld r) := by
  cases r with
  | ok => rfl
  | error => exact nomatch h

theorem length_messageBytes : messageBytes.length = heapStart := by decide

/-- Where the messages are as at the start, their texts are read. -/
theorem read_messages {memory : Memory} (h : memory.read 0 heapStart = messageBytes) :
    memory.read capacityMessage.offset.toUInt32.toNat capacityMessage.length.toUInt32.toNat =
        Text.bytesOfText capacityText ∧
      memory.read indexMessage.offset.toUInt32.toNat indexMessage.length.toUInt32.toNat =
        Text.bytesOfText indexText := by
  have hslice {k n : Nat} (hle : k + n ≤ heapStart) :
      memory.read k n = (messageBytes.drop k).take n := by
    have hread : memory.read (0 + k) n = ((memory.read 0 heapStart).drop k).take n :=
      memory.read_slice hle
    rwa [Nat.zero_add, h] at hread
  constructor
  · exact (hslice (by decide)).trans (by decide)
  · exact (hslice (by decide)).trans (by decide)

theorem memory_startWorld (s : Settings) (console : Console) (fuel : Nat) :
    (startWorld s console fuel).memory = (Memory.zeros (memorySize s)).write 0 messageBytes := by
  rw [startWorld]

theorem size_startWorld (s : Settings) (console : Console) (fuel : Nat) :
    (startWorld s console fuel).memory.size = memorySize s := by
  rw [memory_startWorld, Memory.size_write]
  rfl

theorem initialMemory_moduleOf (s : Settings) (locals : List Local) (body : Block) :
    initialMemory (moduleOf s locals body) =
      (Memory.zeros (memorySize s)).write 0 messageBytes := by
  have hoffset : (0 : Int32).toInt.toNat = 0 := by decide
  simp only [initialMemory, moduleOf, MemoryDecl.size, List.foldl_cons, List.foldl_nil, hoffset,
    memorySize]

theorem get_map_zero (locals : List Local) (name : String) :
    Slots.get (locals.map fun l => (l.name, 0)) name = 0 := by
  induction locals with
  | nil => rfl
  | cons l rest ih =>
      rw [Slots.get, List.map_cons, Slots.find?]
      split
      · rfl
      · exact ih

namespace Stages

variable {s : Settings} {source : List Stmt} {a : Assembled} {major? : String → Option String}

/-- The function that runs the program. -/
def entry (st : Stages s source a major?) : Func :=
  ⟨entryName, entryName, st.vars ++ st.temps ++ st.progress.scratchLocals, st.body⟩

/-- The machine that is ready to run the program. -/
def machine (_ : Stages s source a major?) (console : Console) : Machine Console :=
  ⟨a.module, linked, initialMemory a.module, initialGlobals a.module, [], console⟩

variable (st : Stages s source a major?)
include st

/-! ## The normal form of an assembled program -/

theorem temporaries_eq : (formOf s.tier source).temporaries = a.temporaries := by
  rw [formOf_eq st.check_ok st.normalize_ok]

theorem envOk : EnvOk (formOf s.tier source).env := (check_sound st.check_ok).1

theorem normalizes : ∃ T, Normalizes {} st.checked (formOf s.tier source).stmts T ∧
    T.made = (formOf s.tier source).temporaries := by
  obtain ⟨out, T, hrun, hnorm⟩ := normalize_of_typed (check_sound st.check_ok).2
  obtain ⟨hout, hmade⟩ := Prod.mk.inj (Except.ok.inj (st.normalize_ok.symm.trans hrun))
  rw [← hout] at hnorm
  exact ⟨T, hnorm, hmade.symm.trans st.temporaries_eq.symm⟩

theorem typed : ∀ x ∈ (formOf s.tier source).stmts,
    StmtTyped s.tier (formOf s.tier source).types x := by
  obtain ⟨T, hnorm, hmade⟩ := st.normalizes
  have htyped := hnorm.typed st.envOk Temps.ordered_empty (check_sound st.check_ok).2
  rwa [Temps.env, hmade] at htyped

theorem normal : Stmt.listNormal (formOf s.tier source).stmts = true := by
  obtain ⟨T, hnorm, -⟩ := st.normalizes
  exact hnorm.normal

theorem countable (h : Countable (Stmt.listLengths source)) :
    Countable (Stmt.listLengths (formOf s.tier source).stmts) := by
  obtain ⟨T, hnorm, -⟩ := st.normalizes
  apply hnorm.countable
  rwa [listLengths_of_check st.check_ok]

theorem tempsOk : TempsOk (formOf s.tier source).temporaries := by
  obtain ⟨T, hnorm, hmade⟩ := st.normalizes
  rw [← hmade]
  exact hnorm.tempsOk (check_sound st.check_ok).2

theorem noScratch : NoScratch (Stmt.listNames (formOf s.tier source).stmts) :=
  noScratch_of_typed st.envOk st.tempsOk st.typed

/-! ## The code of an assembled program -/

theorem runsStmts : RunsStmts (targetOf s) (formOf s.tier source).stmts st.body := by
  have hmax : (targetOf s).tier.admits .array = true → 0 < (targetOf s).maxArrayBytes :=
    fun harray => Target.maxArrayBytes_pos (tier_eq_array harray) st.target_ok
  obtain ⟨code, p, hrun, hruns⟩ := emitted_program (t := targetOf s) (admits_loop s) hmax st.typed
    st.normal st.noScratch {}
  obtain ⟨hcode, -⟩ := Prod.mk.inj (st.emit_ok.symm.trans hrun)
  rw [Except.ok.inj hcode]
  exact hruns

/-- The messages lie in memory. -/
theorem heapStart_le : heapStart ≤ memorySize s := by
  have hsegment : (⟨0, messageBytes⟩ : Segment) ∈ a.module.data := by
    rw [st.module_eq]
    exact List.mem_singleton_self _
  have hfits := fits_of_validate st.module_ok _ hsegment
  have hsize : a.module.memory.size = memorySize s := by
    rw [st.module_eq]
    rfl
  rw [Segment.fits, Bool.and_eq_true, hsize] at hfits
  simpa [length_messageBytes] using hfits.2

theorem load_ok (console : Console) :
    Machine.load (some a.module) functions console = .ok (st.machine console) := by
  have himports : a.module.imports = imports := by
    rw [st.module_eq]
    rfl
  rw [Machine.load, st.module_ok]
  simp only
  rw [himports, link_imports]
  rfl

theorem func?_entry : a.module.func? a.module.entry = some st.entry := by
  rw [st.module_eq]
  rfl

theorem agree_start (console : Console) (fuel : Nat) :
    Agree (targetOf s) (startWorld s console fuel) ((st.machine console).start st.entry fuel) := by
  refine ⟨?_, fun name _ _ => get_map_zero _ name, fun harray => ?_, rfl, rfl⟩
  · rw [Machine.start, machine, memory_startWorld, st.module_eq, initialMemory_moduleOf]
  · rw [Machine.start, machine, st.module_eq, initialGlobals, moduleOf,
      if_pos (tier_eq_array harray)]
    rfl

/-- The machine makes the accesses that the run in the reference semantics records. -/
theorem runAccesses_eq (console : Console) (fuel : Nat) :
    (st.machine console).runAccesses fuel = (endWorld (runOf s source console fuel)).accesses := by
  have haccesses := st.runsStmts.accesses_eq (st.agree_start console fuel)
  have hentry : (st.machine console).module.func? (st.machine console).module.entry =
      some st.entry := st.func?_entry
  rw [runAccesses, hentry, runOf, haccesses]
  rfl

/-- Whatever the machine holds from earlier runs, it ends as the run in the reference semantics from
a world that agrees with its start. -/
theorem run_of_agree {m : Machine Console} {w : World} {fuel : Nat} (hmodule : m.module = a.module)
    (hlinked : m.linked = Host.linked) (hagree : Agree (targetOf s) w (m.start st.entry fuel)) :
    ∃ state, Agree (targetOf s)
        (endWorld (runStmts (targetOf s) (formOf s.tier source).stmts w)) state ∧
      m.run fuel =
        (ending (runStmts (targetOf s) (formOf s.tier source).stmts w), m.stopped state) := by
  have hentry : m.module.func? m.module.entry = some st.entry := by
    rw [hmodule]
    exact st.func?_entry
  have houtcome : SameOutcome (targetOf s) []
      (runStmts (targetOf s) (formOf s.tier source).stmts w)
      (execBlock m.linked st.entry.body (m.start st.entry fuel)) := by
    rw [hlinked]
    exact st.runsStmts.sameOutcome hagree
  rw [Machine.run, hentry]
  generalize runStmts (targetOf s) (formOf s.tier source).stmts w = r at houtcome ⊢
  simp only
  generalize execBlock _ _ _ = outcome at houtcome ⊢
  cases houtcome with
  | @done w state hagree hstack =>
      refine ⟨state, hagree, ?_⟩
      simp only [hstack, List.length_nil, if_true]
      rfl
  | halted hagree => exact ⟨_, hagree, rfl⟩

/-- The machine ends as the run in the reference semantics does. -/
theorem run_eq (console : Console) (fuel : Nat) :
    ∃ state, Agree (targetOf s) (endWorld (runOf s source console fuel)) state ∧
      (st.machine console).run fuel =
        (ending (runOf s source console fuel), (st.machine console).stopped state) :=
  st.run_of_agree rfl rfl (st.agree_start console fuel)

/-- The machine comes to every boundary of statements of the reference semantics. -/
theorem runReaches {console : Console} {fuel : Nat} {left : List Stmt} {w : World}
    (h : Passes (targetOf s) (formOf s.tier source).stmts (startWorld s console fuel) left w) :
    ∃ m, (st.machine console).RunReaches fuel m ∧ Agree (targetOf s) w m := by
  obtain ⟨m, hreaches, hagree⟩ := st.runsStmts.reaches _ _ left w (st.agree_start console fuel) h
  exact ⟨m, ⟨st.entry, st.func?_entry, hreaches⟩, hagree⟩

end Stages

end ArrayLang.Assembly
