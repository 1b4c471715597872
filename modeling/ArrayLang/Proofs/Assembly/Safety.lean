import ArrayLang.Proofs.Assembly.Success
import ArrayLang.Proofs.Machine.Safety

/-!
# Assembled programs are safe

The code of an assembled program is typed, so whatever the input and the fuel, a run of it succeeds,
traps, runs out of fuel, or stops because no integer can be read.  No other fault occurs.  While it
runs, and after it, everything that is kept in a slot or left on the stack as `i32` is below 2 ^ 32.
-/

namespace ArrayLang.Assembly

open Source Code Typing NormalForm Machine Host Reference

/-- The slots of a module hold values of their types. -/
structure SlotsInRange (m : Module) (f : Func) (locals globals : Slots) : Prop where
  locals : ∀ l ∈ f.locals, InRange l.ty (locals.get l.name)
  globals : ∀ g ∈ m.globals, InRange g.ty (globals.get g.name)

/-- Whenever a run comes to an instruction, and when it has ended, all slots hold values of their
types, and every instruction leaves a value of its type on the stack. -/
structure ValuesInRange (m : Machine Console) (f : Func) (fuel : Nat) : Prop where
  slots : ∀ instr state, m.RunComes fuel instr state →
    SlotsInRange m.module f state.locals state.globals
  results : ∀ instr state next ty, m.RunComes fuel instr state →
    exec m.linked instr state = .next next →
    (Signature.ofFunc m.module f).result? instr = some ty →
    ∃ value stack, next.stack = value :: stack ∧ InRange ty value
  final : SlotsInRange m.module f (m.run fuel).2.locals (m.run fuel).2.globals

namespace Stages

variable {s : Settings} {source : List Stmt} {a : Assembled} {major? : String → Option String}
  (st : Stages s source a major?)
include st

theorem locals_eq : st.entry.locals =
    localsOf (formOf s.tier source).env (formOf s.tier source).temporaries st.progress := by
  have hvars := st.vars_ok.symm.trans (slots_ok (isValue_of_mem_sorted st.envOk))
  have htemps := st.temps_ok
  rw [← st.temporaries_eq, slots_ok st.tempsOk.value] at htemps
  rw [entry, localsOf, Except.ok.inj hvars, Except.ok.inj htemps]

theorem signature_eq : Signature.ofFunc a.module st.entry = signatureOf s st.entry.locals := by
  rw [Signature.ofFunc, st.module_eq]
  rfl

theorem typed_body : Typed (Signature.ofFunc a.module st.entry) [] [] st.entry.body [] := by
  rw [st.signature_eq, st.locals_eq]
  exact typed_code st.envOk st.tempsOk st.typed st.heapStart_le st.emit_ok

/-- The machine starts in a state that the signature describes. -/
theorem respects_start (console : Console) (fuel : Nat) :
    Respects (Signature.ofFunc a.module st.entry) ((st.machine console).start st.entry fuel) := by
  constructor
  · intro name ty _ _
    rw [Machine.start, get_map_zero]
    decide
  · intro name ty hname
    exact inRange_initialGlobals hname
  · have hmemory : a.module.memory.size = memorySize s := by
      rw [st.module_eq]
      rfl
    rw [Signature.ofFunc, Machine.start, machine, hmemory, st.module_eq, initialMemory_moduleOf,
      Memory.size_write]
    exact Nat.le_refl _

/-- What respects the signature has all slots in range. -/
theorem slotsInRange {state : State Console}
    (h : Respects (Signature.ofFunc a.module st.entry) state) :
    SlotsInRange a.module st.entry state.locals state.globals := by
  have hlocals : (st.entry.locals.map Local.name).Nodup := by
    rw [st.locals_eq]
    exact nodup_localsOf st.envOk st.tempsOk st.progress
  have hglobals : (a.module.globals.map Global.name).Nodup := by
    rw [st.module_eq]
    exact nodup_globals s _ _
  constructor
  · intro l hl
    exact h.locals _ _ (Signature.local?_of_mem hlocals hl)
  · intro g hg
    exact h.globals _ _ (Signature.global?_of_mem hglobals hg)

/-- A run ends in order, in a state that the signature describes. -/
theorem run_orderly (console : Console) (fuel : Nat) :
    ∃ state, Respects (Signature.ofFunc a.module st.entry) state ∧
      ((st.machine console).run fuel).2 = (st.machine console).stopped state ∧
      ∀ why, ((st.machine console).run fuel).1 = .error why → Orderly why := by
  have hentry : (st.machine console).module.func? (st.machine console).module.entry =
      some st.entry := st.func?_entry
  have hleads : Leads (Signature.ofFunc a.module st.entry) [] []
      (execBlock (st.machine console).linked st.entry.body
        ((st.machine console).start st.entry fuel)) :=
    st.typed_body.leads (st.respects_start console fuel) .nil
  rw [Machine.run, hentry]
  simp only
  generalize execBlock _ _ _ = outcome at hleads ⊢
  cases hleads with
  | @next state h hstack =>
      have hempty : state.stack.length = 0 := by
        rw [List.forall₂_nil_left_iff.mp hstack, List.length_nil]
      simp only [hempty, if_true]
      refine ⟨state, h, rfl, ?_⟩
      intro why hwhy
      cases hwhy
  | branch hlabel => cases hlabel
  | @halt why state hwhy h =>
      refine ⟨state, h, rfl, fun why' heq => ?_⟩
      rwa [← Except.error.inj heq]

theorem valuesInRange (console : Console) (fuel : Nat) :
    ValuesInRange (st.machine console) st.entry fuel := by
  have hready {instr : Instr} {state : State Console}
      (h : (st.machine console).RunComes fuel instr state) :
      Ready (Signature.ofFunc a.module st.entry) [instr] state := by
    obtain ⟨f, hf, hcomes⟩ := h
    obtain rfl : st.entry = f := Option.some.inj (st.func?_entry.symm.trans hf)
    exact st.typed_body.comes hcomes (st.respects_start console fuel) .nil
  constructor
  · intro instr state hcomes
    exact st.slotsInRange (hready hcomes).respects
  · intro instr state next ty hcomes hnext hty
    exact (hready hcomes).result_inRange hty hnext
  · obtain ⟨state, hstate, hstopped, -⟩ := st.run_orderly console fuel
    rw [hstopped]
    exact st.slotsInRange hstate

end Stages

/-- However much fuel there is and whatever is typed in, the machine of an assembled program can be
made, its run succeeds, traps, runs out of fuel, or stops because no integer can be read, and all
values are in range. -/
theorem run_of_assembled_is_safe {s : Settings} {program : Option (List Stmt)} {a : Assembled}
    {major? : String → Option String}
    (hassemble : assemble s program major? = .ok a) (console : Console) (fuel : Nat) :
    ∃ m f, Machine.load (some a.module) functions console = .ok m ∧
      m.module.func? m.module.entry = some f ∧
      (∀ why, (m.run fuel).1 = .error why → Orderly why) ∧ ValuesInRange m f fuel := by
  obtain ⟨source, rfl⟩ := exists_source hassemble
  obtain ⟨st⟩ := exists_stages hassemble
  obtain ⟨-, -, -, hend⟩ := st.run_orderly console fuel
  exact ⟨st.machine console, st.entry, st.load_ok console, st.func?_entry, hend,
    st.valuesInRange console fuel⟩

/-- The squares are computed safely with fuel for two rounds of their loop, which is not enough. -/
theorem run_of_squares_is_safe :
    ∃ a m f, assemble .standard (some squares) = .ok a ∧
      Machine.load (some a.module) functions {} = .ok m ∧
      m.module.func? m.module.entry = some f ∧
      (∀ why, (m.run 2).1 = .error why → Orderly why) ∧ ValuesInRange m f 2 := by
  obtain ⟨a, ⟨st⟩⟩ := exists_stages_squares
  obtain ⟨m, f, hrun⟩ := run_of_assembled_is_safe st.assemble_eq {} 2
  exact ⟨a, m, f, st.assemble_eq, hrun⟩

end ArrayLang.Assembly
