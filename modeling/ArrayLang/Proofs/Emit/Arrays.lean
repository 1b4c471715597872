import ArrayLang.Proofs.Emit.Emitted
import ArrayLang.Proofs.Emit.Follows
import ArrayLang.Proofs.Heap.Extents

/-!
# Code for arrays is correct

The operands of array operations are literals and variables, whose code may run more than once
without a difference.  The scratch slots hold the array under construction and the next element to
be filled; no variable of a program is one of them.
-/

namespace ArrayLang.Reference

open Source Code Machine Emit Host Typing

variable {t : Target} {R : Slots → Prop} {st st' : List UInt64}

/-! ## Code that works on the stack -/

theorem Turns.nil : Turns R st [] st := fun _ _ _ _ _ _ => rfl

/-- Code that works on the stack, instruction by instruction. -/
theorem Turns.step {st'' : List UInt64} {instr : Instr} {rest : Block}
    (hinstr : Turns R st [instr] st') (hrest : Turns R st' rest st'') :
    Turns R st (instr :: rest) st'' :=
  hinstr.append hrest

theorem Turns.mono {R' : Slots → Prop} {code : Block}
    (h : Turns R st code st') (hR : ∀ l, R' l → R l) :
    Turns R' st code st' :=
  fun _ _ _ _ _ hl => h _ _ _ _ _ (hR _ hl)

theorem turns_constI64 (value : Int64) : Turns R st [.constI64 value] (value.toUInt64 :: st) := by
  intro memory globals locals host fuel _
  rw [observe_constI64, observe_nil]

theorem turns_i32Const (n : Nat) : Turns R st [i32Const n] ((UInt32.ofNat n).toUInt64 :: st) := by
  intro memory globals locals host fuel _
  rw [i32Const, observe_constI32, observe_nil]
  rfl

theorem turns_constI32 (n : UInt32) : Turns R st [.constI32 n.toInt32] (n.toUInt64 :: st) := by
  intro memory globals locals host fuel _
  rw [observe_constI32, observe_nil]
  rfl

theorem turns_localGet {name : String} {value : UInt64} (h : ∀ l, R l → l.get name = value) :
    Turns R st [.localGet name] (value :: st) := by
  intro memory globals locals host fuel hR
  rw [observe_localGet, observe_nil, h locals hR]

theorem turns_wrap (value : UInt64) :
    Turns R (value :: st) [.convert .wrap] (value.toUInt32.toUInt64 :: st) := by
  intro memory globals locals host fuel _
  rw [observe_wrap, observe_nil]

theorem turns_extendU (value : UInt32) :
    Turns R (value.toUInt64 :: st) [.convert .extendU] (value.toUInt64 :: st) := by
  intro memory globals locals host fuel _
  rw [observe_extendU, observe_nil, UInt32.toUInt32_toUInt64]

theorem turns_arith {ty : ValType} {op : ArithOp} {a b value : UInt64}
    (h : Machine.arith ty op a b = some value) :
    Turns R (b :: a :: st) [.arith ty op] (value :: st) := by
  intro memory globals locals host fuel _
  rw [observe_arith linked memory globals locals st host fuel [] h, observe_nil]

/-- An operation on the lower halves of two words. -/
theorem turns_arith32 {op : ArithOp} {a b : UInt64} {value : UInt32}
    (h : arith32 op a.toUInt32 b.toUInt32 = some value) :
    Turns R (b :: a :: st) [.arith .i32 op] (value.toUInt64 :: st) :=
  turns_arith (by simp [Machine.arith, h])

theorem turns_halves {op : ArithOp} {a b value : UInt32} (h : arith32 op a b = some value) :
    Turns R (b.toUInt64 :: a.toUInt64 :: st) [.arith .i32 op] (value.toUInt64 :: st) :=
  turns_arith32 (by rw [UInt32.toUInt32_toUInt64, UInt32.toUInt32_toUInt64, h])

theorem turns_compare {ty : ValType} {op : CompareOp} {a b : UInt64} {holds : Bool}
    (h : Machine.compare ty op a b = .ok holds) :
    Turns R (b :: a :: st) [.compare ty op] (ofBool holds :: st) := by
  intro memory globals locals host fuel _
  rw [observe_compare linked memory globals locals st host fuel [] h, observe_nil]
  rfl

@[simp] theorem truth_ofBool (b : Bool) : truth (ofBool b) = b := by
  cases b <;> rfl

/-! ## Operands and scratch slots -/

/-- No scratch slot is among the names. -/
def NoScratch (names : List String) : Prop := arraySlot ∉ names ∧ cursorSlot ∉ names

/-- The local slots hold the variables; the scratch slots hold anything. -/
def Holds (vars : String → UInt64) (l : Slots) : Prop :=
  ∀ name, name ≠ arraySlot → name ≠ cursorSlot → l.get name = vars name

/-- The local slots hold the variables and the address of the array under construction. -/
def Builds (vars : String → UInt64) (base : UInt32) (l : Slots) : Prop :=
  Holds vars l ∧ l.get arraySlot = base.toUInt64

/-- The local slots also hold the address of the next element to be filled. -/
def Fills (vars : String → UInt64) (base cursor : UInt32) (l : Slots) : Prop :=
  Builds vars base l ∧ l.get cursorSlot = cursor.toUInt64

variable {vars : String → UInt64} {base : UInt32}

theorem Agree.holds {w : World} {s : State Console} (h : Agree t w s) : Holds w.vars s.locals :=
  h.vars

theorem Holds.set_arraySlot {l : Slots} (h : Holds vars l) (base : UInt32) :
    Builds vars base (l.set arraySlot base.toUInt64) := by
  refine ⟨?_, by simp⟩
  intro name harray hcursor
  rw [Slots.get_set, if_neg harray]
  exact h name harray hcursor

theorem Builds.set_cursorSlot {l : Slots} (h : Builds vars base l) (cursor : UInt32) :
    Fills vars base cursor (l.set cursorSlot cursor.toUInt64) := by
  refine ⟨⟨?_, ?_⟩, by simp⟩
  · intro name harray hcursor
    rw [Slots.get_set, if_neg hcursor]
    exact h.1 name harray hcursor
  · rw [Slots.get_set, if_neg (by decide), h.2]

theorem Agree.setScratch {w : World} {s : State Console} (h : Agree t w s) (name : String)
    (hname : name = arraySlot ∨ name = cursorSlot) (value : UInt64) (stack : List UInt64) :
    Agree t w { s with locals := s.locals.set name value, stack } := by
  refine ⟨h.memory, ?_, h.frontier, h.console, h.fuel⟩
  intro other harray hcursor
  have hne : other ≠ name := by
    rcases hname with rfl | rfl
    · exact harray
    · exact hcursor
  rw [Slots.get_set, if_neg hne]
  exact h.vars other harray hcursor

/-- A literal or a variable, but no scratch slot. -/
structure Plain (e : Expr) : Prop where
  atomic : e.isAtomic = true
  names : NoScratch e.names

theorem plain_int (ty : Ty) (value : Int64) : Plain (.int ty value) :=
  ⟨rfl, by simp [NoScratch, Expr.names]⟩

/-- Code puts a value on the stack, whatever the stack. -/
def Pushes (R : Slots → Prop) (code : Block) (value : UInt64) : Prop :=
  ∀ st, Turns R st code (value :: st)

/-- The code of a literal or a variable puts its value on the stack. -/
theorem pushes_atomCode {e : Expr} {value : UInt64} (hatomic : e.isAtomic = true)
    (hvalue : ∀ l, R l → atomValue l.get e = value) : Pushes R (atomCode e) value := by
  intro st memory globals locals host fuel hR
  rw [← hvalue locals hR]
  cases e with
  | int ty value => rw [atomCode, observe_constI64, observe_nil, atomValue]
  | bool ty value =>
      rw [atomCode, observe_constI32, observe_nil]
      cases value <;> rfl
  | var ty name => rw [atomCode, observe_localGet, observe_nil, atomValue]
  | _ => simp [Expr.isAtomic] at hatomic

/-- The code of an operand that is no scratch slot puts the value of the operand on the stack. -/
theorem turns_atom {e : Expr} (h : Plain e) :
    Turns (Holds vars) st (atomCode e) (atomValue vars e :: st) := by
  refine pushes_atomCode h.atomic (fun l hl => atomValue_congr fun name hname => ?_) st
  apply hl name
  · rintro rfl
    exact h.names.1 hname
  · rintro rfl
    exact h.names.2 hname

/-! ## Reports and accesses -/

/-- The code of a report halts. -/
theorem implements_report {P : State Console → Prop} {Q : Unit → State Console → Prop}
    (msg : Message) :
    Implements t P (Emit.report msg) (report msg) Q := by
  rintro ⟨memory, globals, locals, stack, host, fuel⟩ w hagree -
  obtain rfl : memory = w.memory := hagree.memory
  obtain rfl : host = w.console := hagree.console
  rw [Emit.report, observe_constI32, observe_constI32, run_report]
  by_cases h :
      w.memory.size < msg.offset.toUInt32.toNat + msg.length.toUInt32.toNat
  · rw [observe_reportError_outside _ _ _ _ _ _ _ h]
    simp only [h, if_true]
    exact .halt (hagree.setStack stack) (by simp)
  · rw [observe_reportError _ _ _ _ _ _ _ (Nat.le_of_not_lt h), observe_trap]
    simp only [h, if_false]
    refine .halt ⟨rfl, hagree.vars, hagree.frontier, rfl, hagree.fuel⟩ ?_
    exact (List.append_nil _).symm

/-- A guard halts if its condition holds. -/
theorem implements_guard {cond : Block} {value : UInt64} {ok : Bool} (msg : Message)
    (hvalue : truth value = !ok) (hcond : Turns R st cond (value :: st')) :
    Implements t (At R st) (guard cond msg) (require ok msg) fun _ => At R st' := by
  have hcode : Implements t (At R (value :: st')) [.ifElse .none (Emit.report msg) []]
      (if truth value then report msg else pure ()) fun _ => At R st' :=
    Implements.ifElse .none value (implements_report msg) (Implements.pure Turns.nil fun _ hs => hs)
  have hcheck : (if truth value then report msg else pure ()) = require ok msg := by
    rw [hvalue]
    cases ok <;> rfl
  rw [hcheck] at hcode
  exact Implements.prepare hcond hcode

theorem implements_load {ty : ValType} {word : UInt64} {address : UInt32} (purpose : Purpose)
    (array : UInt32) (hty : ty.size ≠ 0) (haddress : word.toUInt32 = address) :
    Implements t (At R (word :: st)) [.load ty] (load purpose array ty address)
      fun value => At R (value :: st) := by
  rintro ⟨memory, globals, locals, stack, host, fuel⟩ w hagree ⟨hstack, hR⟩
  subst hstack haddress
  obtain rfl : memory = w.memory := hagree.memory
  have hagree' := (hagree.note (.access purpose array (.load ty word.toUInt32)))
  rw [observe_load linked _ _ _ _ _ _ _ ty hty, run_load, observe_nil]
  by_cases h : inBounds w.memory ty word.toUInt32 = true
  · rw [if_pos h, if_pos h]
    exact .ok (hagree'.setStack _) (World.accesses_note _ _) ⟨rfl, hR⟩
  · rw [if_neg h, if_neg h]
    exact .halt (hagree'.setStack _) (World.accesses_note _ _)

theorem implements_store {ty : ValType} {word value : UInt64} {address : UInt32}
    (purpose : Purpose) (array : UInt32) (hty : ty.size ≠ 0) (haddress : word.toUInt32 = address) :
    Implements t (At R (value :: word :: st)) [.store ty]
      (store purpose array ty address value) fun _ => At R st := by
  rintro ⟨memory, globals, locals, stack, host, fuel⟩ w hagree ⟨hstack, hR⟩
  subst hstack haddress
  obtain rfl : memory = w.memory := hagree.memory
  have hagree' := (hagree.note (.access purpose array (.store ty word.toUInt32)))
  rw [observe_store linked _ _ _ _ _ _ _ ty hty, run_store, observe_nil]
  by_cases h : inBounds w.memory ty word.toUInt32 = true
  · rw [if_pos h, if_pos h]
    refine .ok ⟨rfl, hagree'.vars, hagree'.frontier, hagree'.console, hagree'.fuel⟩ ?_ ⟨rfl, hR⟩
    exact World.accesses_note _ _
  · rw [if_neg h, if_neg h]
    exact .halt (hagree'.setStack _) (World.accesses_note _ _)

/-! ## Making arrays -/

theorem toInt_ofNat_width (elem : Ty) :
    (Int64.ofNat (Layout.width elem)).toInt = Layout.width elem := by
  unfold Layout.width
  split <;> decide

/-- The two comparisons of the capacity guards decide whether an array fits. -/
theorem fits_eq {length : UInt64} (hmax : 0 < t.maxArrayBytes) (elem : Ty) :
    fits t length elem =
      (decide (length.toInt64 ≤ maxElements t.maxArrayBytes (Layout.width elem)) &&
        decide (0 ≤ length.toInt64)) := by
  have hwidth := width_pos elem
  have hquot : (t.maxArrayBytes / Int64.ofNat (Layout.width elem)).toInt =
      t.maxArrayBytes.toInt / Layout.width elem := by
    have hne : Int64.ofNat (Layout.width elem) ≠ -1 := by
      unfold Layout.width
      split <;> decide
    have hnonneg : 0 ≤ t.maxArrayBytes.toInt := by
      exact Int.le_of_lt (Int64.lt_iff_toInt_lt.mp hmax)
    rw [Int64.toInt_div_of_ne_right _ _ hne, toInt_ofNat_width,
      Int.tdiv_eq_ediv_of_nonneg hnonneg]
  have hcount : ∀ n : Int, n ≤ t.maxArrayBytes.toInt / Layout.width elem ↔
      n * Layout.width elem ≤ t.maxArrayBytes.toInt :=
    fun n => Int.le_ediv_iff_mul_le (by omega)
  have hlength : (Int64.ofNat Layout.maxLength).toInt = Layout.maxLength := by decide
  have hle : length.toInt64 ≤ maxElements t.maxArrayBytes (Layout.width elem) ↔
      length.toInt64.toInt * Layout.width elem ≤ t.maxArrayBytes.toInt ∧
        length.toInt64.toInt ≤ Layout.maxLength := by
    unfold maxElements
    rw [Std.le_min_iff, Int64.le_iff_toInt_le, Int64.le_iff_toInt_le, hquot, hlength, hcount]
  rw [Bool.eq_iff_iff]
  simp only [fits, Bool.and_eq_true, decide_eq_true_eq, hle, Int64.le_iff_toInt_le,
    Int64.toInt_zero]
  rw [and_assoc]
  exact and_comm

section

variable {length : Expr}

/-- The guards let exactly the lengths of arrays that fit pass. -/
theorem implements_capacityGuards (hmax : 0 < t.maxArrayBytes) (elem : Ty)
    (hlength : Plain length) :
    Implements t (At (Holds vars) st) (capacityGuards t (atomCode length) (Layout.width elem))
      (require (fits t (atomValue vars length) elem) t.capacity) fun _ => At (Holds vars) st := by
  have hatom : Turns (Holds vars) st (atomCode length) (atomValue vars length :: st) :=
    turns_atom hlength
  rw [fits_eq hmax, require_and]
  refine Implements.bind (implements_guard _ ?_ (hatom.append (.step (turns_constI64 _)
    (turns_compare rfl)))) fun _ => implements_guard _ ?_ (hatom.append (.step (turns_constI64 _)
    (turns_compare rfl)))
  · simp [← Int64.not_le]
  · simp [← Int64.not_le]

theorem implements_frontier (harray : t.tier.admits .array = true) :
    Implements t (At (Holds vars) st) [.globalGet t.frontier, .localSet arraySlot] get
      fun w => At (Builds vars w.frontier) st := by
  rintro ⟨memory, globals, locals, stack, host, fuel⟩ w hagree ⟨rfl, hR⟩
  have hfrontier : globals.get t.frontier = w.frontier.toUInt64 := hagree.frontier harray
  rw [observe_globalGet, observe_localSet, observe_nil, hfrontier, run_get]
  refine .ok (hagree.setScratch arraySlot (Or.inl rfl) _ _) (by simp) ⟨rfl, ?_⟩
  exact Holds.set_arraySlot hR w.frontier

theorem implements_setFrontier (address : UInt32) :
    Implements t (At R (address.toUInt64 :: st)) [.globalSet t.frontier]
      (modify fun w => { w with frontier := address }) fun _ => At R st := by
  rintro ⟨memory, globals, locals, stack, host, fuel⟩ w hagree ⟨hstack, hR⟩
  subst hstack
  rw [observe_globalSet, observe_nil, run_modify]
  refine .ok ⟨hagree.memory, hagree.vars, ?_, hagree.console, hagree.fuel⟩ (by simp; rfl) ⟨rfl, hR⟩
  intro _
  simp

/-- The code for the address and the header of the array under construction. -/
def headerCode (length : Block) (elem : Ty) : Block :=
  .localGet arraySlot :: (length ++
    [.convert .wrap, i32Const Layout.lengthShift, .arith .i32 .shl,
      .constI32 (Layout.ElemKind.ofTy elem).code.toInt32, .arith .i32 .xor])

theorem turns_headerCode {code : Block} {p n : UInt64} (elem : Ty)
    (hslot : ∀ l, R l → l.get arraySlot = p) (hcode : Pushes R code n) :
    Turns R st (headerCode code elem)
      ((Layout.encodeHeader n.toUInt32 (Layout.ElemKind.ofTy elem).code).toUInt64 :: p :: st) := by
  refine .step (turns_localGet hslot) (Turns.append (hcode _) ?_)
  refine .step (turns_wrap _) (.step (turns_i32Const _) (.step (turns_halves rfl) ?_))
  exact .step (turns_constI32 _) (turns_halves rfl)

/-- The code for the address behind the array under construction. -/
def pastCode (length : Block) (elem : Ty) : Block :=
  .localGet arraySlot :: i32Const Layout.headerSize :: .arith .i32 .add :: (length ++
    [.convert .wrap, i32Const (Layout.width elem), .arith .i32 .mul, .arith .i32 .add])

theorem turns_pastCode {code : Block} {p n : UInt64} (elem : Ty)
    (hslot : ∀ l, R l → l.get arraySlot = p) (hcode : Pushes R code n) :
    Turns R st (pastCode code elem) ((pastArray p.toUInt32 n.toUInt32 elem).toUInt64 :: st) := by
  refine .step (turns_localGet hslot) (.step (turns_i32Const _) (.step (turns_arith32 rfl) ?_))
  refine Turns.append (hcode _) (.step (turns_wrap _) (.step (turns_i32Const _) ?_))
  refine .step (turns_halves rfl) (turns_halves ?_)
  rw [UInt32.toUInt32_toUInt64]
  rfl

theorem allocation_eq (code : Block) (elem : Ty) :
    allocation t code elem =
      capacityGuards t code (Layout.width elem) ++
        ([.globalGet t.frontier, .localSet arraySlot] ++
          (headerCode code elem ++ ([.store .i32] ++
            (pastCode code elem ++ ([.globalSet t.frontier] ++ []))))) := by
  simp [allocation, headerCode, pastCode]

/-- An allocation checks the length, writes a header, and moves the frontier. -/
theorem implements_allocation (vars : String → UInt64) (st : List UInt64)
    (harray : t.tier.admits .array = true) (hmax : 0 < t.maxArrayBytes) (elem : Ty)
    (hlength : Plain length) :
    Implements t (At (Holds vars) st) (allocation t (atomCode length) elem)
      (allocate t (atomValue vars length) elem) fun base => At (Builds vars base) st := by
  have hcode (base : UInt32) :
      Pushes (Builds vars base) (atomCode length) (atomValue vars length) :=
    fun _ => (turns_atom hlength).mono fun _ hl => hl.1
  have hpast (base : UInt32) : Turns (Builds vars base) st (pastCode (atomCode length) elem)
      ((pastArray base (atomValue vars length).toUInt32 elem).toUInt64 :: st) := by
    have hturns : Turns _ st _ _ := turns_pastCode elem (fun _ hl => hl.2) (hcode base)
    rwa [UInt32.toUInt32_toUInt64] at hturns
  rw [allocation_eq, allocate]
  refine Implements.bind (implements_capacityGuards hmax elem hlength) fun _ => ?_
  refine Implements.bind (implements_frontier harray) fun w => ?_
  refine Implements.prepare (turns_headerCode elem (fun _ hl => hl.2) (hcode w.frontier)) ?_
  refine Implements.bind (implements_store _ _ (by decide) (UInt32.toUInt32_toUInt64 _)) fun _ => ?_
  refine Implements.note rfl (Implements.prepare (hpast w.frontier) ?_)
  refine Implements.bind (implements_setFrontier _) fun _ => ?_
  exact Implements.pure Turns.nil fun _ hs => hs

end

theorem size_cellType_ne_zero {elem : Ty} (h : IsValue elem) : (cellType elem).size ≠ 0 := by
  rw [size_cellType h]
  exact Nat.ne_of_gt (width_pos elem)

theorem implements_elementStore {elem : Ty} {e : Expr} (helem : IsValue elem) (position : Nat)
    (he : Plain e) :
    Implements t (At (Builds vars base) st)
      (elementStore elem (cellType elem) position (atomCode e))
      (store .make base (cellType elem)
        (base + UInt32.ofNat (Layout.headerSize + position * Layout.width elem))
        (atomValue vars e)) fun _ => At (Builds vars base) st := by
  refine Implements.prepare (Turns.append ?_ ((turns_atom he).mono fun _ hl => hl.1))
    (implements_store _ _ (size_cellType_ne_zero helem) (UInt32.toUInt32_toUInt64 _))
  refine .step (turns_localGet fun _ hl => hl.2) (.step (turns_i32Const _) ?_)
  exact turns_halves rfl

variable {env : Env} {elem : Ty}

/-- The code that stores literals and variables as the elements from a position on. -/
def storesCode (elem : Ty) (position : Nat) : List Expr → Block
  | [] => []
  | e :: rest =>
    elementStore elem (cellType elem) position (atomCode e) ++ storesCode elem (position + 1) rest

theorem emitted_elementStores {elems : List Expr} (position : Nat)
    (htyped : ∀ e ∈ elems, HasType t.tier env e elem) (hplain : ∀ e ∈ elems, Plain e) :
    Emitted (elementStores t elem (cellType elem) position elems)
      (· = storesCode elem position elems) := by
  induction elems generalizing position with
  | nil => exact Emitted.pure rfl
  | cons e rest ih =>
      obtain ⟨he, hrest⟩ := List.forall_mem_cons.mp htyped
      obtain ⟨hplain, hplains⟩ := List.forall_mem_cons.mp hplain
      refine (emitted_atom _ he hplain.atomic).bind ?_
      rintro _ rfl
      refine (ih (position + 1) hrest hplains).bind ?_
      rintro _ rfl
      exact Emitted.pure rfl

/-- The elements of an array are stored from first to last. -/
theorem implements_storesCode {elems : List Expr} (helem : IsValue elem) (position : Nat)
    (hplain : ∀ e ∈ elems, Plain e) :
    Implements t (At (Builds vars base) st) (storesCode elem position elems)
      (storeElems base elem position (elems.map (atomValue vars)))
      fun _ => At (Builds vars base) st := by
  induction elems generalizing position with
  | nil => exact Implements.pure Turns.nil fun _ hs => hs
  | cons e rest ih =>
      obtain ⟨hplain, hplains⟩ := List.forall_mem_cons.mp hplain
      exact Implements.bind (implements_elementStore helem position hplain)
        fun _ => ih (position + 1) hplains

/-- The address of the array under construction becomes the value of its expression. -/
theorem implements_arraySlot :
    Implements t (At (Builds vars base) st) [.localGet arraySlot] (pure base.toUInt64)
      fun value => At (Holds vars) (value :: st) :=
  Implements.pure (turns_localGet fun _ hl => hl.2) fun _ hs => ⟨hs.stack, hs.locals.1⟩

/-- The code for an array of listed elements. -/
theorem emitted_listCode {elems : List Expr} (helem : IsValue elem) (ty : Ty)
    (htyped : ∀ e ∈ elems, HasType t.tier env e elem) (hplain : ∀ e ∈ elems, Plain e) :
    Emitted (arrayLit t ty elem elems)
      (· = allocation t [.constI64 (Int64.ofNat elems.length)] elem ++
        (storesCode elem 0 elems ++ [.localGet arraySlot])) := by
  rw [arrayLit, if_pos helem.isValid]
  refine Emitted.bind (Emitted.pure (Q := fun ty => elem = ty) rfl) ?_
  rintro _ rfl
  refine (emitted_representation _ helem).bind ?_
  rintro _ rfl
  refine emitted_useScratch.bind ?_
  intro _ _
  refine (emitted_elementStores 0 htyped hplain).bind ?_
  rintro _ rfl
  exact Emitted.pure (List.append_assoc _ _ _)

/-- The code for an array of listed elements makes it. -/
theorem emitted_arrayLit {elems : List Expr} (harray : t.tier.admits .array = true)
    (hmax : 0 < t.maxArrayBytes) (helem : IsValue elem) (ty : Ty)
    (htyped : ∀ e ∈ elems, HasType t.tier env e elem) (hplain : ∀ e ∈ elems, Plain e) :
    Emitted (arrayLit t ty elem elems) fun code =>
      ∀ vars st, Implements t (At (Holds vars) st) code
        (makeList t elem (elems.map (atomValue vars)))
        fun value => At (Holds vars) (value :: st) := by
  refine (emitted_listCode helem ty htyped hplain).mono ?_
  rintro _ rfl vars st
  have halloc := implements_allocation vars st harray hmax elem
    (plain_int .int (Int64.ofNat elems.length))
  rw [makeList, List.length_map]
  refine Implements.bind halloc fun base => ?_
  exact Implements.bind (implements_storesCode helem 0 hplain) fun _ => implements_arraySlot

/-! ## Filling arrays -/

/-- The cursor is compared with the frontier. -/
theorem implements_cursorTest {cursor : UInt32} (harray : t.tier.admits .array = true) :
    Implements t (At (Fills vars base cursor) st)
      [.localGet cursorSlot, .globalGet t.frontier, .compare .i32 .ltU, i32Const 0,
        .compare .i32 .eq]
      (do return decide (cursor < (← get).frontier)) fun holds s =>
        ∃ v, truth v = !holds ∧ At (Fills vars base cursor) (v :: st) s := by
  rintro ⟨memory, globals, locals, stack, host, fuel⟩ w hagree ⟨rfl, hR⟩
  have hfrontier : globals.get t.frontier = w.frontier.toUInt64 := hagree.frontier harray
  have hcursor : locals.get cursorSlot = cursor.toUInt64 := hR.2
  have hlt : Machine.compare .i32 .ltU cursor.toUInt64 w.frontier.toUInt64 =
      .ok (decide (cursor < w.frontier)) := by
    simp only [Machine.compare, compare32, UInt32.toUInt32_toUInt64]
  have hnot : Turns (Fills vars base cursor) (ofBool (decide (cursor < w.frontier)) :: stack)
      [i32Const 0, .compare .i32 .eq] (ofBool (!decide (cursor < w.frontier)) :: stack) := by
    refine .step (turns_i32Const 0) (turns_compare ?_)
    cases decide (cursor < w.frontier) <;> rfl
  rw [observe_localGet, observe_globalGet, hcursor, hfrontier,
    observe_compare linked memory globals locals stack host fuel _ hlt]
  have hrun := hnot memory globals locals host fuel hR
  rw [ofBool] at hrun
  rw [hrun, run_bind_ok w (run_get w), run_pure]
  exact .ok (hagree.setStack _) (by simp) ⟨_, truth_ofBool _, rfl, hR⟩

/-- A computed address becomes the cursor. -/
theorem implements_setCursor {cursor : UInt32} (hR : ∀ l, R l → Builds vars base l) :
    Implements t (At R (cursor.toUInt64 :: st)) [.localSet cursorSlot] (pure cursor)
      fun cursor => At (Fills vars base cursor) st := by
  rintro ⟨memory, globals, locals, stack, host, fuel⟩ w hagree ⟨hstack, hl⟩
  subst hstack
  rw [observe_localSet, observe_nil]
  refine .ok (hagree.setScratch cursorSlot (Or.inr rfl) _ _) (by simp) ⟨rfl, ?_⟩
  exact (hR locals hl).set_cursorSlot cursor

/-- An element is stored and the cursor moves behind it. -/
theorem implements_fillStep {cursor : UInt32} {fill : Expr} (helem : IsValue elem)
    (hfill : Plain fill) :
    Implements t (At (Fills vars base cursor) st)
      (.localGet cursorSlot :: (atomCode fill ++ [.store (cellType elem), .localGet cursorSlot,
        i32Const (Layout.width elem), .arith .i32 .add, .localSet cursorSlot]))
      (do
        store .make base (cellType elem) cursor (atomValue vars fill)
        return cursor + UInt32.ofNat (Layout.width elem))
      fun cursor => At (Fills vars base cursor) st := by
  have hstore : Turns (Fills vars base cursor) st (.localGet cursorSlot :: atomCode fill)
      (atomValue vars fill :: cursor.toUInt64 :: st) :=
    .step (turns_localGet fun _ hl => hl.2) ((turns_atom hfill).mono fun _ hl => hl.1.1)
  have hsum : Turns (Fills vars base cursor) st
      [.localGet cursorSlot, i32Const (Layout.width elem), .arith .i32 .add]
      ((cursor + UInt32.ofNat (Layout.width elem)).toUInt64 :: st) :=
    .step (turns_localGet fun _ hl => hl.2) (.step (turns_i32Const _) (turns_halves rfl))
  refine Implements.prepare hstore (Implements.cons
    (implements_store _ _ (size_cellType_ne_zero helem) (UInt32.toUInt32_toUInt64 _)) fun _ => ?_)
  exact Implements.prepare hsum (implements_setCursor fun _ hl => hl.1)

/-- The loop that fills an array. -/
theorem implements_fillLoop {labels : LoopLabels} {fill : Expr}
    (harray : t.tier.admits .array = true) (helem : IsValue elem) (hfill : Plain fill)
    (hlabels : labels.exit ≠ labels.start) (cursor : UInt32) :
    Implements t (At (Fills vars base cursor) st)
      [fillLoop t labels elem (cellType elem) (atomCode fill)]
      (fillArray base elem (atomValue vars fill) cursor) fun _ => At (Builds vars base) st := by
  have hcode : fillLoop t labels elem (cellType elem) (atomCode fill) =
      .block labels.exit [.loop labels.start (iterationCode labels
        [.localGet cursorSlot, .globalGet t.frontier, .compare .i32 .ltU, i32Const 0,
          .compare .i32 .eq]
        (.localGet cursorSlot :: (atomCode fill ++ [.store (cellType elem), .localGet cursorSlot,
          i32Const (Layout.width elem), .arith .i32 .add, .localSet cursorSlot])))] := by
    simp [fillLoop, iterationCode]
  rw [hcode]
  refine Implements.mono (P := At (Fills vars base cursor) st)
    (Implements.loop (I := Fills vars base) hlabels ?_ ?_
      (fun _ => implements_cursorTest harray) (fun _ => implements_fillStep helem hfill) cursor)
    (fun _ hs => hs) ?_
  · intro _
    rfl
  · intro bound cursor
    simp only [fillFrom, bind_assoc, pure_bind, decide_eq_true_eq]
  · intro _ s hs
    obtain ⟨cursor, hl⟩ := hs.locals
    exact ⟨hs.stack, hl.1⟩

/-- The code that fills the array under construction from its first element on. -/
def fillCode (t : Target) (labels : LoopLabels) (elem : Ty) (fill : Block) : Block :=
  [.localGet arraySlot, i32Const Layout.headerSize, .arith .i32 .add, .localSet cursorSlot,
    fillLoop t labels elem (cellType elem) fill]

theorem implements_fillCode {labels : LoopLabels} {fill : Expr}
    (harray : t.tier.admits .array = true) (helem : IsValue elem) (hfill : Plain fill)
    (hlabels : labels.exit ≠ labels.start) :
    Implements t (At (Builds vars base) st) (fillCode t labels elem (atomCode fill))
      (fillArray base elem (atomValue vars fill) (base + UInt32.ofNat Layout.headerSize))
      fun _ => At (Builds vars base) st := by
  have hstart : Turns (Builds vars base) st
      [.localGet arraySlot, i32Const Layout.headerSize, .arith .i32 .add]
      ((base + UInt32.ofNat Layout.headerSize).toUInt64 :: st) :=
    .step (turns_localGet fun _ hl => hl.2) (.step (turns_i32Const _) (turns_halves rfl))
  have hsteps : fillArray base elem (atomValue vars fill) (base + UInt32.ofNat Layout.headerSize) =
      (do
        let cursor ← pure (base + UInt32.ofNat Layout.headerSize)
        fillArray base elem (atomValue vars fill) cursor) := by
    rw [pure_bind]
  rw [hsteps]
  refine Implements.prepare hstart (Implements.cons (implements_setCursor fun _ hl => hl) ?_)
  intro cursor
  exact implements_fillLoop harray helem hfill hlabels cursor

/-- The code for an array of equal elements. -/
theorem emitted_fillCode {length fill : Expr} (helem : IsValue elem)
    (hlength : HasType t.tier env length .int) (hfill : HasType t.tier env fill elem)
    (hplain : Plain length) (hplain' : Plain fill) :
    Emitted (arrayFill t (.array elem) length fill) fun code =>
      ∃ labels : LoopLabels, labels.exit ≠ labels.start ∧
        code = allocation t (atomCode length) elem ++
          (fillCode t labels elem (atomCode fill) ++ [.localGet arraySlot]) := by
  rw [arrayFill]
  refine (emitted_elemType helem.isValid).bind ?_
  rintro _ rfl
  refine (emitted_representation _ helem).bind ?_
  rintro _ rfl
  refine (emitted_atom _ hlength hplain.atomic).bind ?_
  rintro _ rfl
  refine (emitted_atom _ hfill hplain'.atomic).bind ?_
  rintro _ rfl
  refine (emitted_freshLabels "fill").bind ?_
  intro labels hlabels
  refine emitted_useScratch.bind ?_
  intro _ _
  exact Emitted.pure ⟨labels, hlabels, rfl⟩

/-- The code for an array of equal elements makes it. -/
theorem emitted_arrayFill {length fill : Expr} (harray : t.tier.admits .array = true)
    (hmax : 0 < t.maxArrayBytes) (helem : IsValue elem)
    (hlength : HasType t.tier env length .int) (hfill : HasType t.tier env fill elem)
    (hplain : Plain length) (hplain' : Plain fill) :
    Emitted (arrayFill t (.array elem) length fill) fun code =>
      ∀ vars st, Implements t (At (Holds vars) st) code
        (makeFill t elem (atomValue vars length) (atomValue vars fill))
        fun value => At (Holds vars) (value :: st) := by
  refine (emitted_fillCode helem hlength hfill hplain hplain').mono ?_
  rintro _ ⟨labels, hlabels, rfl⟩ vars st
  have halloc := implements_allocation vars st harray hmax elem hplain
  rw [makeFill]
  refine Implements.bind halloc fun base => ?_
  exact Implements.bind (implements_fillCode harray helem hplain' hlabels) fun _ =>
    implements_arraySlot

/-! ## Reading arrays -/

theorem turns_length (header : UInt64) :
    Turns R (header :: st) [i32Const Layout.lengthShift, .arith .i32 .shrU, .convert .extendU]
      ((Layout.decodeHeader header.toUInt32).1.toUInt64 :: st) := by
  refine .step (turns_i32Const _) (.step (turns_arith32 ?_) (turns_extendU _))
  rw [UInt32.toUInt32_toUInt64]
  rfl

/-- The length of an array is read from its header. -/
theorem implements_length (purpose : Purpose) (array : UInt64) :
    Implements t (At R (array :: st))
      [.load .i32, i32Const Layout.lengthShift, .arith .i32 .shrU, .convert .extendU]
      (lengthAt purpose array) fun length => At R (length.toUInt64 :: st) := by
  refine Implements.cons (implements_load _ _ (by decide) rfl) fun header => ?_
  exact Implements.pure (turns_length header) fun _ hs => hs

/-- A length is not negative when it is read as a signed number. -/
theorem toInt_length (n : UInt32) : n.toUInt64.toInt64.toInt = n.toNat := by
  have hlt := n.toNat_lt
  have hbits : n.toUInt64.toInt64.toInt = n.toUInt64.toBitVec.toInt := rfl
  have hnat : n.toUInt64.toBitVec.toNat = n.toNat := rfl
  rw [hbits, BitVec.toInt_eq_toNat_of_lt, hnat]
  omega

section

variable {array index : Expr}

/-- The guards let exactly the indices of elements pass. -/
theorem implements_accessGuards (purpose : Purpose) (harray : Plain array)
    (hindex : Plain index) :
    Implements t (At (Holds vars) st) (accessGuards t (atomCode array) (atomCode index))
      (checkIndex t purpose (atomValue vars array) (atomValue vars index))
      fun _ => At (Holds vars) st := by
  have hnegative : Turns (Holds vars) st (atomCode index ++ [.constI64 0, .compare .i64 .ltS])
      (ofBool (decide ((atomValue vars index).toInt64 < 0)) :: st) :=
    (turns_atom hindex).append (.step (turns_constI64 0) (turns_compare rfl))
  have hcode : accessGuards t (atomCode array) (atomCode index) =
      guard (atomCode index ++ [.constI64 0, .compare .i64 .ltS]) t.index ++
        ((atomCode index ++ atomCode array) ++
          ([.load .i32, i32Const Layout.lengthShift, .arith .i32 .shrU, .convert .extendU] ++
            guard [.compare .i64 .geS] t.index)) := by
    simp [accessGuards, Emit.guard, lengthOf]
  rw [hcode]
  refine Implements.bind (implements_guard _ ?_ hnegative) fun _ => ?_
  · rw [truth_ofBool, ← decide_not, decide_eq_decide, Int64.lt_iff_toInt_lt, Int.not_le]
    rfl
  · refine Implements.prepare ((turns_atom hindex).append (turns_atom harray)) ?_
    refine Implements.bind (implements_length purpose _) fun length => ?_
    refine implements_guard _ ?_ (turns_compare rfl)
    rw [truth_ofBool, ← decide_not, decide_eq_decide, Int64.le_iff_toInt_le, toInt_length,
      Int.not_lt]

theorem turns_elementAddress {arrayCode indexCode : Block} {a i : UInt64} (elem : Ty)
    (harray : Pushes R arrayCode a) (hindex : Pushes R indexCode i) :
    Turns R st (elementAddress arrayCode indexCode (Layout.width elem))
      ((elementAt elem a i).toUInt64 :: st) := by
  refine Turns.append (Turns.append (harray _) (hindex _)) ?_
  refine .step (turns_wrap _) (.step (turns_i32Const _) (.step (turns_halves rfl) ?_))
  refine .step (turns_i32Const _) (.step (turns_halves rfl) (turns_arith32 ?_))
  rw [UInt32.toUInt32_toUInt64, arith32, elementAt, UInt32.add_assoc, UInt32.add_comm (_ * _)]

/-- The code for the address of an element, with its type. -/
theorem emitted_refCode (hloop : t.tier.admits .loop = true) (harray : array.isAtomic = true)
    (hty : array.ty = .array elem) (helem : elem.isValid = true) (hindex : index.isAtomic = true)
    (hvalid : index.ty.isValid = true) :
    Emitted (elementRef t array index)
      (· = (accessGuards t (atomCode array) (atomCode index) ++
        elementAddress (atomCode array) (atomCode index) (Layout.width elem), elem)) := by
  have hvalid' : array.ty.isValid = true := by
    rw [hty]
    rfl
  rw [elementRef]
  refine (emitted_operand _ harray hvalid' hloop).bind ?_
  rintro _ rfl
  refine (emitted_operand _ hindex hvalid hloop).bind ?_
  rintro _ rfl
  rw [hty]
  refine (emitted_elemType helem).bind ?_
  rintro _ rfl
  exact Emitted.pure rfl

/-- The code for the address of an element checks the index and locates the element. -/
theorem emitted_elementRef (purpose : Purpose) (harray : HasType t.tier env array (.array elem))
    (hindex : HasType t.tier env index .int) (hplain : Plain array) (hplain' : Plain index) :
    Emitted (elementRef t array index) fun ref => ref.2 = elem ∧
      ∀ vars st, Implements t (At (Holds vars) st) ref.1
        (locate t purpose elem (atomValue vars array) (atomValue vars index))
        fun address => At (Holds vars) (address.toUInt64 :: st) := by
  refine (emitted_refCode hindex.admits_loop hplain.atomic harray.ty_eq
    harray.elem_isValue.isValid hplain'.atomic hindex.isValid).mono ?_
  rintro _ rfl
  refine ⟨rfl, fun vars st => ?_⟩
  refine Implements.bind (implements_accessGuards purpose hplain hplain') fun _ => ?_
  exact Implements.pure
    (turns_elementAddress elem (fun _ => turns_atom hplain) fun _ => turns_atom hplain')
    fun _ hs => hs

/-- Code for reading an element. -/
theorem emitted_elementRead (harray : HasType t.tier env array (.array elem))
    (hindex : HasType t.tier env index .int) (hplain : Plain array) (hplain' : Plain index) :
    Emitted (elementRead t array index) fun code =>
      ∀ vars st, Implements t (At (Holds vars) st) code
        (readElem t elem (atomValue vars array) (atomValue vars index))
        fun value => At (Holds vars) (value :: st) := by
  rw [elementRead]
  refine (emitted_elementRef .read harray hindex hplain hplain').bind ?_
  rintro ⟨address, _⟩ ⟨rfl, haddress⟩
  refine (emitted_representation _ harray.elem_isValue).bind ?_
  rintro _ rfl
  refine Emitted.pure ?_
  intro vars st
  refine Implements.bind (haddress vars st) fun _ => ?_
  exact implements_load _ _ (size_cellType_ne_zero harray.elem_isValue)
    (UInt32.toUInt32_toUInt64 _)

end

end ArrayLang.Reference
