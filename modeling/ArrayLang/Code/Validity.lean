import ArrayLang.Code.Module
import ArrayLang.Text.Quoted

/-!
# Valid modules

In a valid module every name resolves, no slot is declared twice, the segments lie in memory, and
every branch names a block or a loop around it.
-/

namespace ArrayLang.Code

/-- What is wrong with an instruction. -/
inductive InstrError where
  | unknownLocal (name : String)
  | unknownGlobal (name : String)
  | unknownFunction (name : String)
  | branchOutside (label : String)
  | unsupported (kind : String)
  deriving DecidableEq, Repr

/-- What is wrong with a module. -/
inductive ModuleError where
  | missing
  | noEntry (name : String)
  | duplicateGlobal (name : String)
  | segmentOutside (offset : Int32)
  | duplicateLocal (func name : String)
  | instr (func : String) (e : InstrError)
  deriving DecidableEq, Repr

/-- An error in words. -/
def InstrError.message : InstrError → String
  | unknownLocal name => s!"unknown local {Text.quote name}"
  | unknownGlobal name => s!"unknown global {Text.quote name}"
  | unknownFunction name => s!"call to unknown function {Text.quote name}"
  | branchOutside label => s!"branch to {Text.quote label} outside its region"
  | unsupported kind => s!"unsupported fragment {kind}"

/-- An error in words. -/
def ModuleError.message : ModuleError → String
  | missing => "ir: program must be non-nil"
  | noEntry name => s!"ir: entrypoint {Text.quote name} not found"
  | duplicateGlobal name => s!"ir: duplicate global {Text.quote name}"
  | segmentOutside offset => s!"ir: data segment at {offset.toInt} does not fit in memory"
  | duplicateLocal func name => s!"ir: {func}: duplicate local {Text.quote name}"
  | instr func e => s!"ir: {func}: {e.message}"

/-- The first name that occurs a second time. -/
def firstRepeat? (seen : List String) : List String → Option String
  | [] => none
  | name :: rest => if name ∈ seen then some name else firstRepeat? (name :: seen) rest

/-- There is no such name if all names differ, and none was seen before. -/
theorem firstRepeat?_eq_none_iff {seen names : List String} :
    firstRepeat? seen names = none ↔ names.Nodup ∧ ∀ name ∈ names, name ∉ seen := by
  induction names generalizing seen with
  | nil => simp [firstRepeat?]
  | cons name rest ih =>
    rw [firstRepeat?]
    split
    · next hseen => simp [hseen]
    · next hseen =>
      rw [ih, List.nodup_cons, List.forall_mem_cons]
      constructor
      · rintro ⟨hrest, hother⟩
        refine ⟨⟨fun h => hother name h List.mem_cons_self, hrest⟩, hseen, ?_⟩
        exact fun other h hmem => hother other h (List.mem_cons_of_mem _ hmem)
      · rintro ⟨⟨hname, hrest⟩, -, hother⟩
        refine ⟨hrest, fun other h hmem => ?_⟩
        rcases List.mem_cons.mp hmem with rfl | hmem
        · exact hname h
        · exact hother other h hmem

/-- The names that code may use. -/
structure Scope where
  locals : List String
  globals : List String
  functions : List String

/-- A name is among the declared ones. -/
def declared (names : List String) (name : String) (e : InstrError) : Except InstrError Unit :=
  if name ∈ names then .ok () else .error e

mutual

/-- Check an instruction; `labels` are those of the blocks and loops around it.  A branch of a
conditional counts as a region whose label is empty. -/
def checkInstr (scope : Scope) (labels : List String) (instr : Instr) : Except InstrError Unit :=
  match instr with
  | .localGet name | .localSet name | .localTee name =>
    declared scope.locals name (.unknownLocal name)
  | .globalGet name | .globalSet name => declared scope.globals name (.unknownGlobal name)
  | .call name => declared scope.functions name (.unknownFunction name)
  | .ifElse _ thenCode elseCode => do
    checkBlock scope ("" :: labels) thenCode
    checkBlock scope ("" :: labels) elseCode
  | .block label body | .loop label body => checkBlock scope (label :: labels) body
  | .branch label | .branchIf label => declared labels label (.branchOutside label)
  | .missing | .stray _ | .nested _ => .error (.unsupported instr.strayText)
  | .constI64 _ | .constI32 _ | .arith .. | .compare .. | .convert _ | .load _ | .store _ | .drop
  | .trap => .ok ()

/-- Check code from first to last. -/
def checkBlock (scope : Scope) (labels : List String) : Block → Except InstrError Unit
  | [] => .ok ()
  | instr :: rest => do
    checkInstr scope labels instr
    checkBlock scope labels rest

end

/-- A segment lies in a memory of `size` bytes. -/
def Segment.fits (s : Segment) (size : Nat) : Bool :=
  0 ≤ s.offset.toInt && s.offset.toInt + s.bytes.length ≤ size

/-- Check a function of a module. -/
def checkFunc (m : Module) (f : Func) : Except ModuleError Unit :=
  let locals := f.locals.map Local.name
  match firstRepeat? [] locals with
  | some name => .error (.duplicateLocal f.name name)
  | none =>
    let scope : Scope := ⟨locals, m.globals.map Global.name, m.imports.map Import.name⟩
    match checkBlock scope [] f.body with
    | .ok () => .ok ()
    | .error e => .error (.instr f.name e)

/-- Check functions from first to last. -/
def checkFuncs (m : Module) : List Func → Except ModuleError Unit
  | [] => .ok ()
  | f :: rest => do
    checkFunc m f
    checkFuncs m rest

/-- Check a module. -/
def Module.validate (m : Module) : Except ModuleError Unit :=
  if (m.func? m.entry).isNone then .error (.noEntry m.entry)
  else
    match firstRepeat? [] (m.globals.map Global.name) with
    | some name => .error (.duplicateGlobal name)
    | none =>
      match m.data.find? fun s => !s.fits m.memory.size with
      | some s => .error (.segmentOutside s.offset)
      | none => checkFuncs m m.funcs

/-- Check a module that may be missing. -/
def validate : Option Module → Except ModuleError Unit
  | none => .error .missing
  | some m => m.validate

end ArrayLang.Code
