import ArrayLang.Host.Console
import ArrayLang.Machine.Run
import ArrayLang.Proofs.Machine.Observe

/-!
# The linked host

Every compiled module imports the same functions, so linking it to the console gives the same list
each time.  The laws say what a call does, and what is observed of code that starts with one.
-/

namespace ArrayLang.Host

open Machine Code

/-- The import of a function. -/
def Function.decl (f : Function) : Import := ⟨space, f.name, f.params, f.results⟩

/-- The functions of the host over a console. -/
def linked : List (Linked Console) := Function.all.map fun f => ⟨f.decl, f.serve⟩

theorem functions_name (f : Function) : functions f.name = some f.serve := by
  cases f <;> rfl

/-- Linking the imports of compiled modules succeeds. -/
theorem link_imports : link functions imports = .ok linked := by
  have hlink : ∀ fs : List Function,
      link functions (fs.map Function.decl) = .ok (fs.map fun f => ⟨f.decl, f.serve⟩) := by
    intro fs
    induction fs with
    | nil => rfl
    | cons f rest ih =>
        have hf : functions f.decl.name = some f.serve := functions_name f
        simp only [List.map_cons, link, hf, ih]
  exact hlink Function.all

theorem find?_linked (f : Function) :
    (linked.find? fun l => l.decl.name = f.name) = some ⟨f.decl, f.serve⟩ := by
  cases f <;> rfl

/-- A module of one function that imports the functions of the host. -/
def moduleOf (locals : List Local) (body : Block) : Module where
  entry := "main"
  imports := imports
  memory := { pages := 1 }
  funcs := [{ name := "main", locals, body }]

variable (memory : Memory) (globals locals : Slots) (stack : List UInt64) (console : Console)
variable (fuel : Nat) (rest : Block)

private theorem observeInstr_call (f : Function) (s : State Console) :
    observeInstr linked (.call f.name) s = (callHost linked f.name s, []) := rfl

/-! ## Calls -/

/-- A function that prints its argument leaves nothing. -/
theorem callHost_print {f : Function} {ty : ValType} {value : UInt64} {line : String}
    (hparams : f.params = [ty]) (hresults : f.results = [])
    (hserve : f.serve memory [narrow ty value] console = ⟨memory, console.print line, .ok []⟩) :
    callHost linked f.name ⟨memory, globals, locals, value :: stack, console, fuel⟩ =
      .next ⟨memory, globals, locals, stack, console.print line, fuel⟩ := by
  simp [callHost, find?_linked, Function.decl, hparams, hresults, narrowAll, hserve]

/-- An integer that is read goes on the stack. -/
theorem callHost_readInt_ok {value : Int64} {input : Input}
    (h : console.input.readInt = (.ok value, input)) :
    callHost linked Function.readInt.name ⟨memory, globals, locals, stack, console, fuel⟩ =
      .next
        ⟨memory, globals, locals, value.toUInt64 :: stack, { console with input }, fuel⟩ := by
  simp [callHost, find?_linked, Function.decl, Function.params, Function.results, narrowAll,
    Function.serve, narrow, h]

/-- A call halts when no integer can be read. -/
theorem callHost_readInt_error {e : InputError} {input : Input}
    (h : console.input.readInt = (.error e, input)) :
    callHost linked Function.readInt.name ⟨memory, globals, locals, stack, console, fuel⟩ =
      .halt (.fault (.hostFailed Function.readInt.name e.message))
        ⟨memory, globals, locals, stack, { console with input }, fuel⟩ := by
  simp [callHost, find?_linked, Function.decl, Function.params, Function.serve, h]

/-- A message in memory is reported. -/
theorem callHost_reportError {offset length : UInt32}
    (h : offset.toNat + length.toNat ≤ memory.size) :
    callHost linked Function.reportError.name
        ⟨memory, globals, locals, length.toUInt64 :: offset.toUInt64 :: stack, console, fuel⟩ =
      .next
        ⟨memory, globals, locals, stack,
          console.report (memory.read offset.toNat length.toNat), fuel⟩ := by
  simp [callHost, find?_linked, Function.decl, Function.params, Function.results, narrowAll,
    narrow, Function.serve, Nat.not_lt.mpr h]

/-- A call halts when a message is not in memory. -/
theorem callHost_reportError_outside {offset length : UInt32}
    (h : memory.size < offset.toNat + length.toNat) :
    callHost linked Function.reportError.name
        ⟨memory, globals, locals, length.toUInt64 :: offset.toUInt64 :: stack, console, fuel⟩ =
      .halt (.fault (.hostFailed Function.reportError.name
          s!"runtime: message at {offset.toNat}+{length.toNat} is outside memory"))
        ⟨memory, globals, locals, stack, console, fuel⟩ := by
  simp [callHost, find?_linked, Function.decl, Function.params, narrowAll, narrow,
    Function.serve, h]

/-! ## Observed calls -/

theorem observe_print {f : Function} {ty : ValType} {value : UInt64} {line : String}
    (hparams : f.params = [ty]) (hresults : f.results = [])
    (hserve : f.serve memory [narrow ty value] console = ⟨memory, console.print line, .ok []⟩) :
    observe linked (.call f.name :: rest)
        ⟨memory, globals, locals, value :: stack, console, fuel⟩ =
      observe linked rest ⟨memory, globals, locals, stack, console.print line, fuel⟩ := by
  rw [observe_cons, observeInstr_call, callHost_print _ _ _ _ _ _ hparams hresults hserve]
  rfl

theorem observe_readInt_ok {value : Int64} {input : Input}
    (h : console.input.readInt = (.ok value, input)) :
    observe linked (.call Function.readInt.name :: rest)
        ⟨memory, globals, locals, stack, console, fuel⟩ =
      observe linked rest
        ⟨memory, globals, locals, value.toUInt64 :: stack, { console with input }, fuel⟩ := by
  rw [observe_cons, observeInstr_call, callHost_readInt_ok _ _ _ _ _ _ h]
  rfl

theorem observe_readInt_error {e : InputError} {input : Input}
    (h : console.input.readInt = (.error e, input)) :
    observe linked (.call Function.readInt.name :: rest)
        ⟨memory, globals, locals, stack, console, fuel⟩ =
      (.halt (.fault (.hostFailed Function.readInt.name e.message))
        ⟨memory, globals, locals, stack, { console with input }, fuel⟩, []) := by
  rw [observe_cons, observeInstr_call, callHost_readInt_error _ _ _ _ _ _ h]
  rfl

theorem observe_reportError {offset length : UInt32}
    (h : offset.toNat + length.toNat ≤ memory.size) :
    observe linked (.call Function.reportError.name :: rest)
        ⟨memory, globals, locals, length.toUInt64 :: offset.toUInt64 :: stack, console, fuel⟩ =
      observe linked rest
        ⟨memory, globals, locals, stack,
          console.report (memory.read offset.toNat length.toNat), fuel⟩ := by
  rw [observe_cons, observeInstr_call, callHost_reportError _ _ _ _ _ _ h]
  rfl

theorem observe_reportError_outside {offset length : UInt32}
    (h : memory.size < offset.toNat + length.toNat) :
    observe linked (.call Function.reportError.name :: rest)
        ⟨memory, globals, locals, length.toUInt64 :: offset.toUInt64 :: stack, console, fuel⟩ =
      (.halt (.fault (.hostFailed Function.reportError.name
          s!"runtime: message at {offset.toNat}+{length.toNat} is outside memory"))
        ⟨memory, globals, locals, stack, console, fuel⟩, []) := by
  rw [observe_cons, observeInstr_call, callHost_reportError_outside _ _ _ _ _ _ h]
  rfl

end ArrayLang.Host
