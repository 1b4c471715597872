import ArrayLang.Code.Validity
import ArrayLang.Host.Interface

/-!
# Types of code

Code takes a stack of values of some kinds to a stack of values of other kinds.  A branch needs the
stack that its label asks for, and what follows a branch or a trap may start with any stack.  Typed
code uses declared names only.

Reports are typed by the constants that they push, so that their messages are known to lie in memory.
-/

namespace ArrayLang.Code

/-- What is known of a value on the operand stack. -/
inductive Kind where
  /-- It is a value of a type. -/
  | value (ty : ValType)
  /-- It is a known constant. -/
  | constant (n : Int32)

/-- What code relies on: the slots, and how many bytes memory has at least. -/
structure Signature where
  locals : List Local
  globals : List Global
  memorySize : Nat

namespace Signature

/-- The type of a local slot. -/
def local? (Γ : Signature) (name : String) : Option ValType :=
  (Γ.locals.find? fun l => l.name = name).map Local.ty

/-- The type of a global slot. -/
def global? (Γ : Signature) (name : String) : Option ValType :=
  (Γ.globals.find? fun g => g.name = name).map Global.ty

/-- What a function of a module may use. -/
def ofFunc (m : Module) (f : Func) : Signature := ⟨f.locals, m.globals, m.memory.size⟩

end Signature

/-- A declaration is found by its name if no other has that name. -/
theorem find?_of_nodup {α : Type} {name : α → String} {l : List α} {a : α}
    (hdistinct : (l.map name).Nodup) (h : a ∈ l) : l.find? (fun b => name b = name a) = some a := by
  induction l with
  | nil => exact absurd h List.not_mem_nil
  | cons first rest ih =>
      obtain ⟨hfirst, hrest⟩ := List.nodup_cons.mp hdistinct
      rcases List.mem_cons.mp h with rfl | hmem
      · exact List.find?_cons_of_pos (by simp)
      · have hne : name first ≠ name a := fun heq => hfirst (heq ▸ List.mem_map_of_mem hmem)
        rw [List.find?_cons_of_neg (by simpa using hne)]
        exact ih hrest hmem

theorem Signature.local?_of_mem {Γ : Signature} {l : Local}
    (hdistinct : (Γ.locals.map Local.name).Nodup) (h : l ∈ Γ.locals) :
    Γ.local? l.name = some l.ty := by
  rw [Signature.local?, find?_of_nodup hdistinct h]
  rfl

theorem Signature.global?_of_mem {Γ : Signature} {g : Global}
    (hdistinct : (Γ.globals.map Global.name).Nodup) (h : g ∈ Γ.globals) :
    Γ.global? g.name = some g.ty := by
  rw [Signature.global?, find?_of_nodup hdistinct h]
  rfl

/-- The labels around code, each with the stack that a branch to it needs. -/
abbrev Labels := List (String × List Kind)

/-- The stack with values of some types on it; the last one is on top. -/
def stacked (types : List ValType) (st : List Kind) : List Kind :=
  (types.map Kind.value).reverse ++ st

/-- An instruction that holds no code takes one stack to another. -/
inductive Simple (Γ : Signature) (L : Labels) : List Kind → Instr → List Kind → Prop
  | constI64 {st : List Kind} {n : Int64} : Simple Γ L st (.constI64 n) (.value .i64 :: st)
  | constI32 {st : List Kind} {n : Int32} : Simple Γ L st (.constI32 n) (.value .i32 :: st)
  | constant {st : List Kind} {n : Int32} : Simple Γ L st (.constI32 n) (.constant n :: st)
  | localGet {st : List Kind} {name : String} {ty : ValType} :
      Γ.local? name = some ty → Simple Γ L st (.localGet name) (.value ty :: st)
  | localSet {st : List Kind} {name : String} {ty : ValType} :
      Γ.local? name = some ty → Simple Γ L (.value ty :: st) (.localSet name) st
  | localTee {st : List Kind} {name : String} {ty : ValType} :
      Γ.local? name = some ty → Simple Γ L (.value ty :: st) (.localTee name) (.value ty :: st)
  | globalGet {st : List Kind} {name : String} {ty : ValType} :
      Γ.global? name = some ty → Simple Γ L st (.globalGet name) (.value ty :: st)
  | globalSet {st : List Kind} {name : String} {ty : ValType} :
      Γ.global? name = some ty → Simple Γ L (.value ty :: st) (.globalSet name) st
  | arith {st : List Kind} {ty : ValType} {op : ArithOp} :
      ty ∈ [.i32, .i64] → op ∈ ArithOp.named →
      Simple Γ L (.value ty :: .value ty :: st) (.arith ty op) (.value ty :: st)
  | compare {st : List Kind} {ty : ValType} {op : CompareOp} :
      ty ∈ [.i32, .i64] → op ∈ CompareOp.named →
      Simple Γ L (.value ty :: .value ty :: st) (.compare ty op) (.value .i32 :: st)
  | wrap {st : List Kind} :
      Simple Γ L (.value .i64 :: st) (.convert .wrap) (.value .i32 :: st)
  | extendU {st : List Kind} :
      Simple Γ L (.value .i32 :: st) (.convert .extendU) (.value .i64 :: st)
  | load {st : List Kind} {ty : ValType} :
      ty ∈ [.i32, .i64] → Simple Γ L (.value .i32 :: st) (.load ty) (.value ty :: st)
  | store {st : List Kind} {ty : ValType} :
      ty ∈ [.i32, .i64] → Simple Γ L (.value ty :: .value .i32 :: st) (.store ty) st
  | call {st : List Kind} {f : Host.Function} :
      f ≠ .reportError →
      Simple Γ L (stacked f.params st) (.call f.name) (stacked f.results st)
  | report {st : List Kind} {offset length : Int32} :
      offset.toUInt32.toNat + length.toUInt32.toNat ≤ Γ.memorySize →
      Simple Γ L (.constant length :: .constant offset :: st)
        (.call Host.Function.reportError.name) st
  | branch {st st' : List Kind} {label : String} :
      L.lookup label = some st → Simple Γ L st (.branch label) st'
  | branchIf {st : List Kind} {label : String} :
      L.lookup label = some st → Simple Γ L (.value .i32 :: st) (.branchIf label) st
  | drop {st : List Kind} {k : Kind} : Simple Γ L (k :: st) .drop st
  | trap {st st' : List Kind} : Simple Γ L st .trap st'

/-- Code takes one stack to another. -/
inductive Typed (Γ : Signature) : Labels → List Kind → Block → List Kind → Prop
  | nil {L : Labels} {st : List Kind} : Typed Γ L st [] st
  | step {L : Labels} {st st₁ st' : List Kind} {instr : Instr} {rest : Block} :
      Simple Γ L st instr st₁ → Typed Γ L st₁ rest st' → Typed Γ L st (instr :: rest) st'
  | ifElse {L : Labels} {st st₁ st' : List Kind} {result : ValType}
      {thenCode elseCode rest : Block} :
      Typed Γ L st thenCode st₁ → Typed Γ L st elseCode st₁ → Typed Γ L st₁ rest st' →
      Typed Γ L (.value .i32 :: st) (.ifElse result thenCode elseCode :: rest) st'
  | block {L : Labels} {st st₁ st' : List Kind} {label : String} {body rest : Block} :
      Typed Γ ((label, st₁) :: L) st body st₁ → Typed Γ L st₁ rest st' →
      Typed Γ L st (.block label body :: rest) st'
  | loop {L : Labels} {st st₁ st' : List Kind} {label : String} {body rest : Block} :
      Typed Γ ((label, st) :: L) st body st₁ → Typed Γ L st₁ rest st' →
      Typed Γ L st (.loop label body :: rest) st'

variable {Γ : Signature} {L : Labels} {st st₁ st' : List Kind}

theorem Typed.append {first second : Block} (hfirst : Typed Γ L st first st₁)
    (hsecond : Typed Γ L st₁ second st') : Typed Γ L st (first ++ second) st' := by
  induction hfirst with
  | nil => exact hsecond
  | step hinstr _ ih => exact .step hinstr (ih hsecond)
  | ifElse hthen helse _ _ _ ih => exact .ifElse hthen helse (ih hsecond)
  | block hbody _ _ ih => exact .block hbody (ih hsecond)
  | loop hbody _ _ ih => exact .loop hbody (ih hsecond)

/-! ## Typed code is valid -/

/-- All names of a signature are in a scope. -/
structure Signature.Within (Γ : Signature) (scope : Scope) : Prop where
  locals : ∀ l ∈ Γ.locals, l.name ∈ scope.locals
  globals : ∀ g ∈ Γ.globals, g.name ∈ scope.globals
  functions : ∀ f : Host.Function, f.name ∈ scope.functions

theorem declared_of_mem {names : List String} {name : String} (e : InstrError)
    (h : name ∈ names) : declared names name e = .ok () := by
  rw [declared, if_pos h]

theorem mem_of_lookup {label : String} (h : L.lookup label = some st) :
    label ∈ L.map Prod.fst := by
  obtain ⟨before, after, rfl, -⟩ := List.lookup_eq_some_iff.mp h
  simp

section

variable {scope : Scope} (hscope : Γ.Within scope)
include hscope

theorem Signature.Within.mem_locals {name : String} {ty : ValType}
    (h : Γ.local? name = some ty) : name ∈ scope.locals := by
  obtain ⟨l, hfind, -⟩ := Option.map_eq_some_iff.mp h
  have hname : l.name = name := by simpa using List.find?_some hfind
  exact hname ▸ hscope.locals l (List.mem_of_find?_eq_some hfind)

theorem Signature.Within.mem_globals {name : String} {ty : ValType}
    (h : Γ.global? name = some ty) : name ∈ scope.globals := by
  obtain ⟨g, hfind, -⟩ := Option.map_eq_some_iff.mp h
  have hname : g.name = name := by simpa using List.find?_some hfind
  exact hname ▸ hscope.globals g (List.mem_of_find?_eq_some hfind)

theorem Simple.check {instr : Instr} {labels : List String} (h : Simple Γ L st instr st')
    (hlabels : ∀ label ∈ L.map Prod.fst, label ∈ labels) :
    checkInstr scope labels instr = .ok () := by
  cases h with
  | localGet hname | localSet hname | localTee hname =>
      exact declared_of_mem _ (hscope.mem_locals hname)
  | globalGet hname | globalSet hname => exact declared_of_mem _ (hscope.mem_globals hname)
  | call => exact declared_of_mem _ (hscope.functions _)
  | report => exact declared_of_mem _ (hscope.functions _)
  | branch hlabel | branchIf hlabel =>
      exact declared_of_mem _ (hlabels _ (mem_of_lookup hlabel))
  | _ => rfl

/-- Typed code uses declared names only, and branches to labels around it. -/
theorem Typed.check {code : Block} {labels : List String} (h : Typed Γ L st code st')
    (hlabels : ∀ label ∈ L.map Prod.fst, label ∈ labels) :
    checkBlock scope labels code = .ok () := by
  have hcons {label : String} {st : List Kind} {L : Labels} {labels : List String}
      (hlabels : ∀ label ∈ L.map Prod.fst, label ∈ labels) :
      ∀ l ∈ ((label, st) :: L).map Prod.fst, l ∈ label :: labels := by
    intro l hl
    rcases List.mem_cons.mp hl with rfl | hl
    · exact List.mem_cons_self
    · exact List.mem_cons_of_mem _ (hlabels l hl)
  induction h generalizing labels with
  | nil => rfl
  | step hinstr _ ih =>
      rw [checkBlock, hinstr.check hscope hlabels]
      exact ih hlabels
  | ifElse _ _ _ ihthen ihelse ih =>
      have hinner : ∀ label ∈ _, label ∈ "" :: labels :=
        fun label h => List.mem_cons_of_mem _ (hlabels label h)
      rw [checkBlock, checkInstr, ihthen hinner, ihelse hinner]
      exact ih hlabels
  | block _ _ ihbody ih =>
      rw [checkBlock, checkInstr, ihbody (hcons hlabels)]
      exact ih hlabels
  | loop _ _ ihbody ih =>
      rw [checkBlock, checkInstr, ihbody (hcons hlabels)]
      exact ih hlabels

end

end ArrayLang.Code
