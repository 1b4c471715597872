import ArrayLang.Machine.Exec
import ArrayLang.Proofs.Code.Regions

/-!
# What code leaves alone

An instruction that holds no code changes the stack and at most one other part of the state.  A
relation between states that stands such changes and the use of fuel also holds between the first
and the last state of an execution.
-/

namespace ArrayLang.Machine

open Code

variable {H : Type}

/-! ## Outcomes -/

namespace Outcome

/-- The state to which an outcome has come. -/
def state : Outcome H → State H
  | .next s | .branch _ s | .halt _ s => s

/-- Go on from the state that was reached, if one was reached. -/
def andThen (o : Outcome H) (go : State H → Outcome H) : Outcome H :=
  match o with
  | .next s => go s
  | o => o

/-- Go on from the state in which a branch to the label was made, if one was made. -/
def onBranch (label : String) (o : Outcome H) (go : State H → Outcome H) : Outcome H :=
  match o with
  | .branch target s => if target = label then go s else .branch target s
  | o => o

end Outcome

section

variable {env : List (Linked H)} {s : State H}

theorem execBlock_cons (instr : Instr) (rest : Block) :
    execBlock env (instr :: rest) s = (exec env instr s).andThen (execBlock env rest) := by
  rw [execBlock]
  cases exec env instr s <;> rfl

/-- The first instruction goes on. -/
theorem execBlock_cons_of_next {instr : Instr} {s' : State H} (h : exec env instr s = .next s')
    (rest : Block) : execBlock env (instr :: rest) s = execBlock env rest s' := by
  rw [execBlock_cons, h, Outcome.andThen]

theorem execBlock_append_eq (first second : Block) (s : State H) :
    execBlock env (first ++ second) s =
      (execBlock env first s).andThen (execBlock env second) := by
  induction first generalizing s with
  | nil => rfl
  | cons instr rest ih =>
      rw [List.cons_append, execBlock_cons, execBlock_cons]
      cases exec env instr s with
      | next s => exact ih s
      | branch | halt => rfl

theorem exec_block (label : String) (body : Block) :
    exec env (.block label body) s = (execBlock env body s).onBranch label .next := by
  rw [exec]
  cases execBlock env body s <;> rfl

theorem iterate_empty {label : String} {body : State H → Outcome H} (bound : Nat)
    (h : s.fuel = 0) : iterate label body bound s = .halt .canceled s := by
  cases bound with
  | zero => rfl
  | succ bound => rw [iterate, if_pos h]

theorem iterate_succ {label : String} {body : State H → Outcome H} (bound : Nat)
    (h : s.fuel ≠ 0) :
    iterate label body (bound + 1) s =
      (body { s with fuel := s.fuel - 1 }).onBranch label (iterate label body bound) := by
  rw [iterate, if_neg h]
  cases body { s with fuel := s.fuel - 1 } <;> rfl

end

/-! ## Single instructions -/

/-- What an instruction that holds no code may change. -/
inductive Touches (env : List (Linked H)) : Instr → State H → State H → Prop
  | stack (instr : Instr) (s : State H) (stack : List UInt64) : Touches env instr s { s with stack }
  | setLocal {instr : Instr} {name : String} (s : State H) (value : UInt64)
      (stack : List UInt64) :
      instr = .localSet name ∨ instr = .localTee name →
      Touches env instr s { s with locals := s.locals.set name value, stack }
  | setGlobal (name : String) (s : State H) (value : UInt64) (stack : List UInt64) :
      Touches env (.globalSet name) s { s with globals := s.globals.set name value, stack }
  | store (ty : ValType) (s : State H) (memory : Memory) (stack : List UInt64) :
      Touches env (.store ty) s { s with memory, stack }
  | call (name : String) {l : Linked H} (s : State H) (args stack : List UInt64) : l ∈ env →
      Touches env (.call name) s
        { s with
          memory := (l.serve s.memory args s.host).memory
          host := (l.serve s.memory args s.host).host
          stack }

section

variable {env : List (Linked H)} {instr : Instr} {s s' : State H}

theorem Touches.of_setStack {stack : List UInt64} (h : Touches env instr { s with stack } s') :
    Touches env instr s s' := by
  cases h with
  | stack => exact .stack _ _ _
  | setLocal _ _ _ hinstr => exact .setLocal _ _ _ hinstr
  | setGlobal => exact .setGlobal _ _ _ _
  | store => exact .store _ _ _ _
  | call _ _ _ _ hl => exact .call _ _ _ _ hl

theorem touches_withTop {act : UInt64 → State H → Outcome H}
    (hact : ∀ value s, Touches env instr s (act value s).state) :
    Touches env instr s (withTop s act).state := by
  obtain ⟨memory, globals, locals, stack, host, fuel⟩ := s
  cases stack with
  | nil => exact .stack _ _ _
  | cons value rest =>
      exact Touches.of_setStack (hact value ⟨memory, globals, locals, rest, host, fuel⟩)

theorem touches_withTopTwo {act : UInt64 → UInt64 → State H → Outcome H}
    (hact : ∀ a b s, Touches env instr s (act a b s).state) :
    Touches env instr s (withTopTwo s act).state :=
  touches_withTop fun b _ => touches_withTop fun a s => hact a b s

theorem touches_callHost (name : String) :
    Touches env (.call name) s (callHost env name s).state := by
  rw [callHost]
  split
  · exact .stack _ _ _
  · next l hl =>
      have hmem := List.mem_of_find?_eq_some hl
      dsimp only
      split
      · exact .stack _ _ _
      · split
        · exact .call _ _ _ _ hmem
        · exact .call _ _ _ _ hmem
        · split <;> exact .call _ _ _ _ hmem

theorem touches_exec (hplain : instr.holdsCode = false) :
    Touches env instr s (exec env instr s).state := by
  cases instr with
  | constI64 | constI32 | localGet | globalGet | branch | trap | missing | stray | nested =>
      exact .stack _ _ _
  | localSet =>
      rw [exec]
      exact touches_withTop fun _ _ => .setLocal _ _ _ (.inl rfl)
  | localTee =>
      rw [exec]
      exact touches_withTop fun _ _ => .setLocal _ _ _ (.inr rfl)
  | globalSet =>
      rw [exec]
      exact touches_withTop fun _ _ => .setGlobal _ _ _ _
  | drop =>
      rw [exec]
      exact touches_withTop fun _ _ => .stack _ _ _
  | arith ty op =>
      refine touches_withTopTwo fun a b s => ?_
      cases Machine.arith ty op a b <;> exact .stack _ _ _
  | compare ty op =>
      refine touches_withTopTwo fun a b s => ?_
      cases Machine.compare ty op a b <;> exact .stack _ _ _
  | convert op =>
      cases op <;>
        simp only [exec] <;>
        exact touches_withTop fun _ _ => .stack _ _ _
  | load ty =>
      refine touches_withTop fun address s => ?_
      rw [loadValue]
      split
      · split <;> exact .stack _ _ _
      · exact .stack _ _ _
  | store ty =>
      refine touches_withTopTwo fun address value s => ?_
      rw [storeValue]
      split
      · split
        · exact .stack _ _ _
        · exact .store _ _ _ _
      · exact .stack _ _ _
  | call name => exact touches_callHost name
  | branchIf label =>
      rw [exec]
      refine touches_withTop fun value s => ?_
      split <;> exact .stack _ _ _
  | ifElse | block | loop => cases hplain

end

/-! ## Code -/

/-- A relation between states that does not see changes of the stack and the use of fuel. -/
structure Framed (R : State H → State H → Prop) : Prop where
  refl : ∀ s, R s s
  trans : ∀ {s s' s''}, R s s' → R s' s'' → R s s''
  setStack : ∀ s stack, R s { s with stack }
  spend : ∀ s, R s { s with fuel := s.fuel - 1 }

namespace Framed

variable {R : State H → State H → Prop} {go : State H → Outcome H}

theorem andThen (hR : Framed R) (o : Outcome H) (hgo : ∀ s, R s (go s).state) :
    R o.state (o.andThen go).state := by
  cases o with
  | next s => exact hgo s
  | branch | halt => exact hR.refl _

theorem onBranch (hR : Framed R) (label : String) (o : Outcome H)
    (hgo : ∀ s, R s (go s).state) : R o.state (o.onBranch label go).state := by
  cases o with
  | branch target s =>
      rw [Outcome.onBranch]
      split
      · exact hgo s
      · exact hR.refl _
  | next | halt => exact hR.refl _

theorem iterate (hR : Framed R) {label : String} {body : State H → Outcome H}
    (hbody : ∀ s, R s (body s).state) (bound : Nat) (s : State H) :
    R s (iterate label body bound s).state := by
  induction bound generalizing s with
  | zero => exact hR.refl s
  | succ bound ih =>
      by_cases hfuel : s.fuel = 0
      · rw [iterate_empty _ hfuel]
        exact hR.refl s
      · rw [iterate_succ _ hfuel]
        exact hR.trans (hR.spend s) (hR.trans (hbody _) (hR.onBranch label _ ih))

/-- A framed relation that the instructions of code respect holds between the first state and the
last one. -/
theorem of_leaves (hR : Framed R) {env : List (Linked H)} {code : Block}
    (hleaves : ∀ instr ∈ leaves code, ∀ s s', Touches env instr s s' → R s s') (s : State H) :
    R s (execBlock env code s).state := by
  induction code using Block.induct generalizing s with
  | nil => exact hR.refl s
  | step instr rest hplain ih =>
      rw [leaves, List.forall_mem_append] at hleaves
      rw [execBlock_cons]
      have hinstr : R s (exec env instr s).state := by
        refine hleaves.1 instr ?_ _ _ (touches_exec hplain)
        rw [Instr.leaves_of_plain hplain]
        exact List.mem_singleton_self instr
      exact hR.trans hinstr (hR.andThen _ (ih hleaves.2))
  | ifElse result thenCode elseCode rest ihthen ihelse ih =>
      rw [leaves, Instr.leaves, List.forall_mem_append, List.forall_mem_append] at hleaves
      obtain ⟨⟨hthen, helse⟩, hrest⟩ := hleaves
      rw [execBlock_cons]
      refine hR.trans ?_ (hR.andThen _ (ih hrest))
      obtain ⟨memory, globals, locals, stack, host, fuel⟩ := s
      cases stack with
      | nil => exact hR.refl _
      | cons value stack =>
          rw [exec, withTop]
          refine hR.trans (hR.setStack _ stack) ?_
          split
          · exact ihthen hthen _
          · exact ihelse helse _
  | block label body rest ihbody ih =>
      rw [leaves, Instr.leaves, List.forall_mem_append] at hleaves
      rw [execBlock_cons, exec_block]
      have hblock : R s ((execBlock env body s).onBranch label .next).state :=
        hR.trans (ihbody hleaves.1 s) (hR.onBranch label _ fun s => hR.refl s)
      exact hR.trans hblock (hR.andThen _ (ih hleaves.2))
  | loop label body rest ihbody ih =>
      rw [leaves, Instr.leaves, List.forall_mem_append] at hleaves
      rw [execBlock_cons, exec]
      exact hR.trans (hR.iterate (ihbody hleaves.1) s.fuel s) (hR.andThen _ (ih hleaves.2))

end Framed

/-- Code does not set a local slot. -/
def Spares (name : String) (code : Block) : Prop :=
  ∀ instr ∈ leaves code, instr ≠ .localSet name ∧ instr ≠ .localTee name

theorem Spares.append {name : String} {first second : Block} (h : Spares name first)
    (h' : Spares name second) : Spares name (first ++ second) := by
  rw [Spares, leaves_append, List.forall_mem_append]
  exact ⟨h, h'⟩

theorem Spares.block {name : String} {body : Block} (label : String) (h : Spares name body) :
    Spares name [.block label body] := by
  rw [Spares, leaves, Instr.leaves, leaves, List.append_nil]
  exact h

theorem Spares.loop {name : String} {body : Block} (label : String) (h : Spares name body) :
    Spares name [.loop label body] := by
  rw [Spares, leaves, Instr.leaves, leaves, List.append_nil]
  exact h

theorem framed_local (name : String) :
    Framed fun s s' : State H => s'.locals.get name = s.locals.get name where
  refl _ := rfl
  trans h h' := h'.trans h
  setStack _ _ := rfl
  spend _ := rfl

/-- A local slot that code does not set has the same value at the end. -/
theorem Spares.get_eq {env : List (Linked H)} {name : String} {code : Block} (h : Spares name code)
    (s : State H) : (execBlock env code s).state.locals.get name = s.locals.get name := by
  refine (framed_local name).of_leaves (fun instr hinstr s s' htouches => ?_) s
  obtain ⟨hset, htee⟩ := h instr hinstr
  cases htouches with
  | @setLocal _ other _ _ _ hname =>
      have hne : name ≠ other := by
        rintro rfl
        exact hname.elim hset htee
      rw [Slots.get_set, if_neg hne]
  | stack | setGlobal | store | call => rfl

end ArrayLang.Machine
