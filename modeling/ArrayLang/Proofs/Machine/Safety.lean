import ArrayLang.Proofs.Code.Typed
import ArrayLang.Proofs.Host.Linked
import ArrayLang.Proofs.Machine.Reaches
import ArrayLang.Proofs.Machine.Words
import Mathlib.Data.List.Forall2

/-!
# Typed code is safe

Typed code that starts with a stack of the right kinds ends with such a stack, branches to a label
with the stack that the label asks for, or halts in order: by a trap, for want of fuel, or because no
integer can be read.  Whenever it comes to an instruction, the slots and the stack are as their types
say.  In particular everything of type `i32` is below 2 ^ 32.
-/

namespace ArrayLang.Code

open Machine Host

/-- A value of type `i32` is below 2 ^ 32. -/
def InRange (ty : ValType) (value : UInt64) : Prop := ty = .i32 → value.toNat < UInt32.size

/-- A value is of a kind. -/
def Kind.Has : Kind → UInt64 → Prop
  | .value ty, v => InRange ty v
  | .constant n, v => v = n.toUInt32.toUInt64

/-- The values of a stack are of some kinds. -/
abbrev StackOk : List Kind → List UInt64 → Prop := List.Forall₂ Kind.Has

/-- The slots and the memory are as a signature says. -/
structure Respects (Γ : Signature) (s : State Console) : Prop where
  locals : ∀ name ty, Γ.local? name = some ty → InRange ty (s.locals.get name)
  globals : ∀ name ty, Γ.global? name = some ty → InRange ty (s.globals.get name)
  memory : Γ.memorySize ≤ s.memory.size

/-- A run may halt for this reason. -/
inductive Orderly : Halt → Prop
  | trap (t : Trap) : Orderly (.trap t)
  | canceled : Orderly .canceled
  | noInput (e : InputError) : Orderly (.fault (.hostFailed Function.readInt.name e.message))

/-- How typed code may end. -/
inductive Leads (Γ : Signature) (L : Labels) (st : List Kind) : Outcome Console → Prop
  | next {s : State Console} : Respects Γ s → StackOk st s.stack → Leads Γ L st (.next s)
  | branch {label : String} {st' : List Kind} {s : State Console} :
      L.lookup label = some st' → Respects Γ s → StackOk st' s.stack →
      Leads Γ L st (.branch label s)
  | halt {why : Halt} {s : State Console} : Orderly why → Respects Γ s → Leads Γ L st (.halt why s)

variable {Γ : Signature} {L : Labels} {st st₁ st' : List Kind} {s s' : State Console}

/-! ## Values -/

theorem inRange_i64 (value : UInt64) : InRange .i64 value := fun h => nomatch h

theorem inRange_toUInt64 (ty : ValType) (value : UInt32) : InRange ty value.toUInt64 := by
  intro _
  rw [UInt32.toNat_toUInt64]
  exact value.toNat_lt

theorem inRange_ofBool (ty : ValType) (holds : Bool) : InRange ty (if holds then 1 else 0) := by
  intro _
  cases holds <;> decide

theorem inRange_word (ty : ValType) (m : Memory) (address : Nat) :
    InRange ty (Memory.wordOfBytes (m.read address ty.size)) := by
  intro hi32
  have hlength : (m.read address ty.size).length = 4 := by
    rw [Memory.length_read, hi32]
    rfl
  have hlt : (Memory.wordOfBytes (m.read address ty.size)).toNat < _ :=
    Memory.toNat_wordOfBytes_lt (by omega)
  rwa [hlength] at hlt

theorem inRange_narrow (ty : ValType) (value : UInt64) : InRange ty (narrow ty value) := by
  rw [narrow]
  split
  · exact inRange_toUInt64 _ _
  · next hne => exact fun h => absurd h hne

theorem size_ne_zero {ty : ValType} (hty : ty ∈ [.i32, .i64]) : ty.size ≠ 0 := by
  simp only [List.mem_cons, List.not_mem_nil, or_false] at hty
  rcases hty with rfl | rfl <;> decide

theorem exists_arith {ty : ValType} {op : ArithOp} (hty : ty ∈ [.i32, .i64])
    (hop : op ∈ ArithOp.named) (a b : UInt64) :
    ∃ value, arith ty op a b = some value ∧ InRange ty value := by
  simp only [List.mem_cons, List.not_mem_nil, or_false] at hty
  simp only [ArithOp.named, List.mem_cons, List.not_mem_nil, or_false] at hop
  rcases hty with rfl | rfl
  · rcases hop with rfl | rfl | rfl | rfl | rfl | rfl <;>
      exact ⟨_, rfl, inRange_toUInt64 _ _⟩
  · rcases hop with rfl | rfl | rfl | rfl | rfl | rfl <;> exact ⟨_, rfl, inRange_i64 _⟩

theorem exists_compare {ty : ValType} {op : CompareOp} (hty : ty ∈ [.i32, .i64])
    (hop : op ∈ CompareOp.named) (a b : UInt64) : ∃ holds, compare ty op a b = .ok holds := by
  simp only [List.mem_cons, List.not_mem_nil, or_false] at hty
  simp only [CompareOp.named, List.mem_cons, List.not_mem_nil, or_false] at hop
  rcases hty with rfl | rfl <;>
    rcases hop with rfl | rfl | rfl | rfl | rfl | rfl | rfl <;> exact ⟨_, rfl⟩

/-! ## Slots -/

/-- Global slots start with values of their types. -/
theorem inRange_initialGlobals {globals : List Global} {name : String} {ty : ValType}
    (h : (globals.find? fun g => g.name = name).map Global.ty = some ty) :
    InRange ty (Slots.get (globals.map fun g => (g.name, narrow g.ty g.init.toUInt64)) name) := by
  induction globals with
  | nil => exact nomatch h
  | cons g rest ih =>
      rw [Slots.get, List.map_cons, Slots.find?]
      by_cases hname : g.name = name
      · rw [List.find?_cons_of_pos (by simpa using hname)] at h
        rw [if_pos hname, ← Option.some.inj h]
        exact inRange_narrow _ _
      · rw [List.find?_cons_of_neg (by simpa using hname)] at h
        rw [if_neg hname]
        exact ih h

/-- A slot that is set to a value of its type leaves all slots with values of their types. -/
theorem inRange_get_set {types : String → Option ValType} {slots : Slots} {name : String}
    {ty : ValType} {value : UInt64}
    (h : ∀ other ty', types other = some ty' → InRange ty' (slots.get other))
    (hname : types name = some ty) (hvalue : InRange ty value) (other : String) (ty' : ValType)
    (hother : types other = some ty') : InRange ty' ((slots.set name value).get other) := by
  rw [Slots.get_set]
  by_cases heq : other = name
  · rw [if_pos heq]
    rw [heq, hname] at hother
    exact Option.some.inj hother ▸ hvalue
  · rw [if_neg heq]
    exact h other ty' hother

theorem Respects.setLocal {name : String} {ty : ValType} {value : UInt64} (h : Respects Γ s)
    (hname : Γ.local? name = some ty) (hvalue : InRange ty value) :
    Respects Γ { s with locals := s.locals.set name value } :=
  ⟨inRange_get_set h.locals hname hvalue, h.globals, h.memory⟩

theorem Respects.setGlobal {name : String} {ty : ValType} {value : UInt64} (h : Respects Γ s)
    (hname : Γ.global? name = some ty) (hvalue : InRange ty value) :
    Respects Γ { s with globals := s.globals.set name value } :=
  ⟨h.locals, inRange_get_set h.globals hname hvalue, h.memory⟩

theorem Respects.setFuel (h : Respects Γ s) (fuel : Nat) : Respects Γ { s with fuel } :=
  ⟨h.locals, h.globals, h.memory⟩

theorem Respects.setStack (h : Respects Γ s) (stack : List UInt64) : Respects Γ { s with stack } :=
  ⟨h.locals, h.globals, h.memory⟩

theorem Respects.setHost (h : Respects Γ s) (stack : List UInt64) (host : Console) :
    Respects Γ { s with stack, host } :=
  ⟨h.locals, h.globals, h.memory⟩

/-! ## Instructions -/

theorem Leads.push {value : UInt64} {k : Kind} (h : Respects Γ s) (hstack : StackOk st s.stack)
    (hvalue : Kind.Has k value) : Leads Γ L (k :: st) (.next (s.push value)) :=
  .next (h.setStack _) (.cons hvalue hstack)

/-- A call of a function that does not report. -/
theorem leads_call {f : Function} (hf : f ≠ .reportError) (h : Respects Γ s)
    (hstack : StackOk (stacked f.params st) s.stack) :
    Leads Γ L (stacked f.results st) (callHost linked f.name s) := by
  obtain ⟨memory, globals, locals, stack, console, fuel⟩ := s
  cases f with
  | printInt | printBool | printRef =>
      cases hstack with
      | cons _ hrest =>
          rw [callHost_print memory globals locals _ console fuel rfl rfl rfl]
          exact .next (h.setHost _ _) hrest
  | readInt =>
      cases hread : console.input.readInt with
      | mk answer input =>
          cases answer with
          | ok value =>
              rw [callHost_readInt_ok memory globals locals stack console fuel hread]
              exact .next (h.setHost _ _) (.cons (inRange_i64 _) hstack)
          | error e =>
              rw [callHost_readInt_error memory globals locals stack console fuel hread]
              exact .halt (.noInput e) (h.setHost _ _)
  | reportError => exact absurd rfl hf

theorem leads_report {offset length : Int32} (h : Respects Γ s)
    (hmessage : offset.toUInt32.toNat + length.toUInt32.toNat ≤ Γ.memorySize)
    (hstack : StackOk (.constant length :: .constant offset :: st) s.stack) :
    Leads Γ L st (callHost linked Function.reportError.name s) := by
  obtain ⟨memory, globals, locals, stack, console, fuel⟩ := s
  cases hstack with
  | cons hlength hrest =>
      cases hrest with
      | cons hoffset hrest =>
          obtain rfl := hlength
          obtain rfl := hoffset
          rw [callHost_reportError memory globals locals _ console fuel
            (Nat.le_trans hmessage h.memory)]
          exact .next (h.setHost _ _) hrest

theorem leads_load {ty : ValType} {address : UInt32} (hty : ty ∈ [.i32, .i64]) (h : Respects Γ s)
    (hstack : StackOk st s.stack) : Leads Γ L (.value ty :: st) (loadValue ty address s) := by
  rw [loadValue]
  split
  · rw [if_neg (size_ne_zero hty)]
    exact .push h hstack (inRange_word ty _ _)
  · exact .halt (.trap _) h

theorem leads_store {ty : ValType} {address : UInt32} {value : UInt64} (hty : ty ∈ [.i32, .i64])
    (h : Respects Γ s) (hstack : StackOk st s.stack) :
    Leads Γ L st (storeValue ty address value s) := by
  rw [storeValue]
  split
  · rw [if_neg (size_ne_zero hty)]
    refine .next ⟨h.locals, h.globals, ?_⟩ hstack
    rw [Memory.size_write]
    exact h.memory
  · exact .halt (.trap _) h

theorem leads_withTop {k : Kind} {act : UInt64 → State Console → Outcome Console}
    (h : Respects Γ s) (hstack : StackOk (k :: st) s.stack)
    (hact : ∀ value s, Kind.Has k value → Respects Γ s → StackOk st s.stack →
      Leads Γ L st' (act value s)) :
    Leads Γ L st' (withTop s act) := by
  obtain ⟨memory, globals, locals, stack, console, fuel⟩ := s
  cases hstack with
  | cons hvalue hrest => exact hact _ _ hvalue (h.setStack _) hrest

theorem leads_withTopTwo {k k' : Kind} {act : UInt64 → UInt64 → State Console → Outcome Console}
    (h : Respects Γ s) (hstack : StackOk (k :: k' :: st) s.stack)
    (hact : ∀ first second s, Kind.Has k' first → Kind.Has k second → Respects Γ s →
      StackOk st s.stack → Leads Γ L st' (act first second s)) :
    Leads Γ L st' (withTopTwo s act) := by
  refine leads_withTop h hstack fun second s hsecond h hstack => ?_
  exact leads_withTop h hstack fun first s hfirst h hstack =>
    hact first second s hfirst hsecond h hstack

/-- An instruction that holds no code leads as its type says. -/
theorem Simple.leads {instr : Instr} (hinstr : Simple Γ L st instr st') (h : Respects Γ s)
    (hstack : StackOk st s.stack) : Leads Γ L st' (exec linked instr s) := by
  cases hinstr with
  | constI64 => exact .push h hstack (inRange_i64 _)
  | constI32 => exact .push h hstack (inRange_toUInt64 _ _)
  | constant => exact .push h hstack rfl
  | localGet hname => exact .push h hstack (h.locals _ _ hname)
  | localSet hname =>
      exact leads_withTop h hstack fun value s hvalue h hstack =>
        .next (h.setLocal hname hvalue) hstack
  | localTee hname =>
      exact leads_withTop h hstack fun value s hvalue h hstack =>
        .push (h.setLocal hname hvalue) hstack hvalue
  | globalGet hname => exact .push h hstack (h.globals _ _ hname)
  | globalSet hname =>
      exact leads_withTop h hstack fun value s hvalue h hstack =>
        .next (h.setGlobal hname hvalue) hstack
  | arith hty hop =>
      refine leads_withTopTwo h hstack fun a b s _ _ h hstack => ?_
      obtain ⟨value, hvalue, hrange⟩ := exists_arith hty hop a b
      rw [hvalue]
      exact .push h hstack hrange
  | compare hty hop =>
      refine leads_withTopTwo h hstack fun a b s _ _ h hstack => ?_
      obtain ⟨holds, hholds⟩ := exists_compare hty hop a b
      rw [hholds]
      exact .push h hstack (inRange_ofBool _ _)
  | wrap =>
      rw [exec]
      · exact leads_withTop h hstack fun value s _ h hstack =>
          .push h hstack (inRange_toUInt64 _ _)
      · intro _ h
        cases h
  | extendU =>
      rw [exec]
      · exact leads_withTop h hstack fun value s _ h hstack => .push h hstack (inRange_i64 _)
      · intro _ h
        cases h
  | load hty => exact leads_withTop h hstack fun address s _ h hstack => leads_load hty h hstack
  | store hty =>
      exact leads_withTopTwo h hstack fun address value s _ _ h hstack => leads_store hty h hstack
  | call hf => exact leads_call hf h hstack
  | report hmessage => exact leads_report h hmessage hstack
  | branch hlabel => exact .branch hlabel h hstack
  | branchIf hlabel =>
      rw [exec]
      refine leads_withTop h hstack fun value s _ h hstack => ?_
      split
      · exact .next h hstack
      · exact .branch hlabel h hstack
  | drop => exact leads_withTop h hstack fun value s _ h hstack => .next h hstack
  | trap => exact .halt (.trap _) h

/-! ## Code -/

/-- After an instruction that leads to a stack comes code that starts with that stack. -/
theorem Leads.andThen {instr : Instr} {rest : Block}
    (h : Leads Γ L st (exec linked instr s))
    (hrest : ∀ s', Respects Γ s' → StackOk st s'.stack → Leads Γ L st' (execBlock linked rest s')) :
    Leads Γ L st' (execBlock linked (instr :: rest) s) := by
  rw [execBlock]
  generalize exec linked instr s = outcome at h ⊢
  cases h with
  | next h hstack => exact hrest _ h hstack
  | branch hlabel h hstack => exact .branch hlabel h hstack
  | halt hwhy h => exact .halt hwhy h

/-- A branch out of a region goes to the region's own label or to one around it. -/
theorem lookup_cons_ne {label target : String} (hne : target ≠ label)
    (h : List.lookup target ((label, st) :: L) = some st₁) : L.lookup target = some st₁ := by
  rwa [List.lookup_cons, beq_false_of_ne hne] at h

theorem lookup_cons_self {label : String} (h : List.lookup label ((label, st) :: L) = some st₁) :
    st = st₁ := by
  rw [List.lookup_cons_self] at h
  exact Option.some.inj h

theorem leads_block {label : String} {body : Block}
    (h : Leads Γ ((label, st) :: L) st (execBlock linked body s)) :
    Leads Γ L st (exec linked (.block label body) s) := by
  rw [exec]
  generalize execBlock linked body s = outcome at h ⊢
  cases h with
  | next h hstack => exact .next h hstack
  | @branch target st₁ s₁ hlabel h hstack =>
      by_cases heq : target = label
      · subst heq
        simp only [if_true]
        exact .next h (lookup_cons_self hlabel ▸ hstack)
      · simp only [if_neg heq]
        exact .branch (lookup_cons_ne heq hlabel) h hstack
  | halt hwhy h => exact .halt hwhy h

/-- A loop leads to what each of its iterations leads to.  The induction is on the bound of the
iterations. -/
theorem leads_iterate {label : String} {body : State Console → Outcome Console} {bound : Nat}
    (hbody : ∀ s, Respects Γ s → StackOk st s.stack → Leads Γ ((label, st) :: L) st' (body s))
    (h : Respects Γ s) (hstack : StackOk st s.stack) :
    Leads Γ L st' (iterate label body bound s) := by
  induction bound generalizing s with
  | zero => exact .halt .canceled h
  | succ bound ih =>
      rw [iterate]
      by_cases hfuel : s.fuel = 0
      · rw [if_pos hfuel]
        exact .halt .canceled h
      · rw [if_neg hfuel]
        have hfirst := hbody _ (h.setFuel (s.fuel - 1)) hstack
        generalize body _ = outcome at hfirst ⊢
        cases hfirst with
        | next h hstack => exact .next h hstack
        | @branch target st₁ s₁ hlabel h hstack =>
            by_cases heq : target = label
            · subst heq
              simp only [if_true]
              exact ih h (lookup_cons_self hlabel ▸ hstack)
            · simp only [if_neg heq]
              exact .branch (lookup_cons_ne heq hlabel) h hstack
        | halt hwhy h => exact .halt hwhy h

/-- Typed code leads as its type says. -/
theorem Typed.leads {code : Block} (hcode : Typed Γ L st code st') (h : Respects Γ s)
    (hstack : StackOk st s.stack) : Leads Γ L st' (execBlock linked code s) := by
  induction hcode generalizing s with
  | nil => exact .next h hstack
  | step hinstr _ ih => exact (hinstr.leads h hstack).andThen fun s' => ih
  | ifElse _ _ _ ihthen ihelse ih =>
      refine Leads.andThen ?_ fun s' => ih
      rw [exec]
      refine leads_withTop h hstack fun value s _ h hstack => ?_
      split
      · exact ihthen h hstack
      · exact ihelse h hstack
  | block _ _ ihbody ih => exact (leads_block (ihbody h hstack)).andThen fun s' => ih
  | loop _ _ ihbody ih =>
      exact Leads.andThen (leads_iterate (fun s => ihbody) h hstack) fun s' => ih

/-! ## States on the way -/

/-- Code is typed for the state in which it starts. -/
structure Ready (Γ : Signature) (code : Block) (s : State Console) : Prop where
  typed : ∃ L st st', Typed Γ L st code st' ∧ StackOk st s.stack
  respects : Respects Γ s

/-- Every iteration of a typed loop starts in a state that its type describes. -/
theorem Typed.repeats {label : String} {body : Block}
    (hbody : Typed Γ ((label, st) :: L) st body st') (hrepeats : Repeats linked label body s s')
    (h : Respects Γ s) (hstack : StackOk st s.stack) : Respects Γ s' ∧ StackOk st s'.stack := by
  induction hrepeats with
  | refl => exact ⟨h, hstack⟩
  | @step s₁ _ _ _ hrun _ ih =>
      have hleads := hbody.leads (h.setFuel (s₁.fuel - 1)) hstack
      rw [hrun] at hleads
      cases hleads with
      | branch hlabel h hstack => exact ih h (lookup_cons_self hlabel ▸ hstack)

/-- Whenever typed code comes to an instruction, that instruction is typed for the state. -/
theorem Typed.comes {code : Block} {instr : Instr} (hcode : Typed Γ L st code st')
    (hcomes : Comes linked code s instr s') (h : Respects Γ s) (hstack : StackOk st s.stack) :
    Ready Γ [instr] s' := by
  induction hcomes generalizing L st st' with
  | here =>
      refine ⟨?_, h⟩
      cases hcode with
      | step hinstr => exact ⟨L, st, _, .step hinstr .nil, hstack⟩
      | ifElse hthen helse => exact ⟨L, _, _, .ifElse hthen helse .nil, hstack⟩
      | block hbody => exact ⟨L, st, _, .block hbody .nil, hstack⟩
      | loop hbody => exact ⟨L, st, _, .loop hbody .nil, hstack⟩
  | @next first instr rest s s₁ s₂ hrun _ ih =>
      have hfirst : ∃ st₁, Typed Γ L st [first] st₁ ∧ Typed Γ L st₁ rest st' := by
        cases hcode with
        | step hinstr hrest => exact ⟨_, .step hinstr .nil, hrest⟩
        | ifElse hthen helse hrest => exact ⟨_, .ifElse hthen helse .nil, hrest⟩
        | block hbody hrest => exact ⟨_, .block hbody .nil, hrest⟩
        | loop hbody hrest => exact ⟨_, .loop hbody .nil, hrest⟩
      obtain ⟨st₁, htyped, hrest⟩ := hfirst
      have hleads := htyped.leads h hstack
      rw [execBlock, hrun] at hleads
      cases hleads with
      | next h hstack => exact ih hrest h hstack
  | @inBranch result thenCode elseCode rest instr value stack s s₁ hs _ ih =>
      cases hcode with
      | step hinstr => cases hinstr
      | ifElse hthen helse =>
          rw [hs] at hstack
          cases hstack with
          | cons _ hstack =>
              split at ih
              · exact ih hthen (h.setStack _) hstack
              · exact ih helse (h.setStack _) hstack
  | inBlock _ ih =>
      cases hcode with
      | step hinstr => cases hinstr
      | block hbody => exact ih hbody h hstack
  | inLoop hrepeats _ _ ih =>
      cases hcode with
      | step hinstr => cases hinstr
      | loop hbody =>
          obtain ⟨h', hstack'⟩ := hbody.repeats hrepeats h hstack
          exact ih hbody (h'.setFuel _) hstack'

/-! ## Results of instructions -/

/-- The type of the value that an instruction leaves on the stack, if it leaves one. -/
def Signature.result? (Γ : Signature) : Instr → Option ValType
  | .constI32 _ | .compare .. | .convert .wrap => some .i32
  | .constI64 _ | .convert .extendU => some .i64
  | .localGet name | .localTee name => Γ.local? name
  | .globalGet name => Γ.global? name
  | .arith ty _ | .load ty => some ty
  | .call name => (Function.ofName? name).bind fun f => f.results.head?
  | _ => none

theorem Signature.result?_call (f : Function) :
    Γ.result? (.call f.name) = f.results.head? := by
  cases f <;> rfl

theorem Simple.result {instr : Instr} {ty : ValType} (h : Simple Γ L st instr st')
    (hty : Γ.result? instr = some ty) :
    ∃ k rest, st' = k :: rest ∧ ∀ value, Kind.Has k value → InRange ty value := by
  cases h with
  | constI64 | wrap | extendU | compare | constI32 | arith | load =>
      obtain rfl := Option.some.inj hty
      exact ⟨_, _, rfl, fun _ hvalue => hvalue⟩
  | @constant n =>
      refine ⟨_, _, rfl, fun value hvalue => ?_⟩
      obtain rfl := hvalue
      exact inRange_toUInt64 _ _
  | localGet hname | localTee hname =>
      obtain rfl := Option.some.inj (hname.symm.trans hty)
      exact ⟨_, _, rfl, fun _ hvalue => hvalue⟩
  | globalGet hname =>
      obtain rfl := Option.some.inj (hname.symm.trans hty)
      exact ⟨_, _, rfl, fun _ hvalue => hvalue⟩
  | @call st f =>
      rw [Signature.result?_call] at hty
      cases f with
      | readInt =>
          obtain rfl := Option.some.inj hty
          exact ⟨_, _, rfl, fun _ hvalue => hvalue⟩
      | _ => exact nomatch hty
  | report =>
      rw [Signature.result?_call] at hty
      exact nomatch hty
  | _ => exact nomatch hty

/-- What a typed instruction leaves on the stack is in range. -/
theorem Ready.result_inRange {instr : Instr} {ty : ValType} (h : Ready Γ [instr] s)
    (hty : Γ.result? instr = some ty) (hrun : exec linked instr s = .next s') :
    ∃ value stack, s'.stack = value :: stack ∧ InRange ty value := by
  obtain ⟨L, st, st', htyped, hstack⟩ := h.typed
  cases htyped with
  | step hinstr hnil =>
      obtain ⟨k, rest, rfl, hrange⟩ := hinstr.result hty
      have hleads := hinstr.leads h.respects hstack
      rw [hrun] at hleads
      cases hleads with
      | @next s' _ hstack' =>
          obtain ⟨value, stack, hvalue, -, heq⟩ := List.forall₂_cons_left_iff.mp hstack'
          exact ⟨value, stack, heq, hrange value hvalue⟩
  | ifElse | block | loop => exact nomatch hty

end ArrayLang.Code
