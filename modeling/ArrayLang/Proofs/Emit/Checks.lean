import ArrayLang.Assembly
import ArrayLang.Proofs.Emit.Arrays
import ArrayLang.Proofs.Emit.Headers
import ArrayLang.Proofs.Heap.Making
import ArrayLang.Proofs.Machine.Frame
import ArrayLang.Proofs.Machine.Reaches

/-!
# Checks of lengths and indices

The code that makes an array starts with a check of the length, and the code for an element with a
check of the index.  A check that fails reports its message and halts, and nothing else changes.
What passes is exact: the checks form no product and no sum that could wrap.

The statements are about every state of the machine.  A reference is the lower half of a word, also
in a state that no program comes to, in which the upper half is not zero.
-/

namespace ArrayLang.Reference

open Source Code Machine Emit Host

/-! ## Checks that fail -/

/-- A message lies in memory. -/
def Inside (m : Memory) (msg : Message) : Prop :=
  msg.offset.toUInt32.toNat + msg.length.toUInt32.toNat ≤ m.size

instance (m : Memory) (msg : Message) : Decidable (Inside m msg) :=
  inferInstanceAs (Decidable (_ ≤ _))

/-- A message is reported and the run halts, with everything else as it was. -/
def refused (msg : Message) (s : State Console) : Outcome Console :=
  let text := s.memory.read msg.offset.toUInt32.toNat msg.length.toUInt32.toNat
  .halt (.trap .unreachable) { s with host := s.host.report text }

section

variable {t : Target} {R : Slots → Prop} {st : List UInt64} {s : State Console}

theorem Turns.exec {code : Block} (h : Turns R s.stack code st) (hR : R s.locals) :
    execBlock linked code s = .next { s with stack := st } :=
  congrArg Prod.fst (h s.memory s.globals s.locals s.host s.fuel hR)

theorem exec_report {msg : Message} (h : Inside s.memory msg) :
    execBlock linked (Emit.report msg) s = refused msg s := by
  obtain ⟨memory, globals, locals, stack, console, fuel⟩ := s
  have hobserve : observe linked (Emit.report msg) ⟨memory, globals, locals, stack, console, fuel⟩ =
      (refused msg ⟨memory, globals, locals, stack, console, fuel⟩, []) := by
    rw [Emit.report, observe_constI32, observe_constI32, observe_reportError _ _ _ _ _ _ _ h,
      observe_trap]
    rfl
  exact congrArg Prod.fst hobserve

/-- A guard refuses or does nothing. -/
theorem exec_guard {cond : Block} {msg : Message} {failed : Bool}
    (hcond : execBlock linked cond s = .next (s.push (ofBool failed)))
    (hmsg : Inside s.memory msg) :
    execBlock linked (guard cond msg) s = if failed then refused msg s else .next s := by
  rw [Emit.guard, execBlock_append_eq, hcond]
  cases failed with
  | false => rfl
  | true =>
      have hbranch : execBlock linked [.ifElse .none (Emit.report msg) []] (s.push (ofBool true)) =
          (execBlock linked (Emit.report msg) s).andThen (execBlock linked []) :=
        execBlock_cons _ _
      rw [Outcome.andThen, hbranch, exec_report hmsg]
      rfl

theorem exec_store (value address : UInt64) (stack : List UInt64) :
    execBlock linked [.store .i32] { s with stack := value :: address :: stack } =
      if inBounds s.memory .i32 address.toUInt32 then
        .next { s with memory := s.memory.setWord .i32 address.toUInt32.toNat value, stack }
      else .halt (.trap (.outOfBounds address.toUInt32)) { s with stack } := by
  have hstore : exec linked (.store .i32) { s with stack := value :: address :: stack } =
      storeValue .i32 address.toUInt32 value { s with stack } := rfl
  rw [execBlock_cons, hstore, storeValue]
  by_cases h : inBounds s.memory .i32 address.toUInt32 = true
  · rw [if_pos h, if_pos h]
    rfl
  · rw [if_neg h, if_neg h]
    rfl

/-! ## Lengths -/

/-- No array of this length may be made: it is negative, its elements take too many bytes, or no
header can hold it. -/
def Unfit (t : Target) (elem : Ty) (n : Int) : Prop :=
  n < 0 ∨ t.maxArrayBytes.toInt < n * Layout.width elem ∨ (Layout.maxLength : Int) < n

instance (t : Target) (elem : Ty) (n : Int) : Decidable (Unfit t elem n) :=
  inferInstanceAs (Decidable (_ ∨ _ ∨ _))

theorem fits_iff {length : UInt64} {elem : Ty} :
    fits t length elem = true ↔ ¬Unfit t elem length.toInt64.toInt := by
  simp only [fits, Unfit, Bool.and_eq_true, decide_eq_true_eq, not_or, Int.not_lt, and_assoc]

/-- The guards refuse exactly the lengths that do not fit. -/
theorem exec_capacityGuards {code : Block} {length : UInt64} (hmax : 0 < t.maxArrayBytes)
    (elem : Ty) (hcode : Pushes R code length) (hR : R s.locals)
    (hmsg : Inside s.memory t.capacity) :
    execBlock linked (capacityGuards t code (Layout.width elem)) s =
      if fits t length elem then .next s else refused t.capacity s := by
  let most := maxElements t.maxArrayBytes (Layout.width elem)
  have hlarge : Turns R s.stack (code ++ [.constI64 most, .compare .i64 .gtS])
      (ofBool (decide (most < length.toInt64)) :: s.stack) :=
    (hcode _).append (.step (turns_constI64 _) (turns_compare rfl))
  have hnegative : Turns R s.stack (code ++ [.constI64 0, .compare .i64 .ltS])
      (ofBool (decide (length.toInt64 < 0)) :: s.stack) :=
    (hcode _).append (.step (turns_constI64 _) (turns_compare rfl))
  rw [capacityGuards, execBlock_append_eq, exec_guard (hlarge.exec hR) hmsg, fits_eq hmax]
  by_cases hle : length.toInt64 ≤ most
  · have hmost : ¬most < length.toInt64 := Int64.not_lt.mpr hle
    rw [decide_eq_false hmost, if_neg Bool.false_ne_true, Outcome.andThen,
      exec_guard (hnegative.exec hR) hmsg, decide_eq_true hle, Bool.true_and]
    by_cases hnonneg : 0 ≤ length.toInt64
    · rw [decide_eq_true hnonneg, decide_eq_false (Int64.not_lt.mpr hnonneg)]
      rfl
    · rw [decide_eq_false hnonneg, decide_eq_true (Int64.not_le.mp hnonneg)]
      rfl
  · have hmost : most < length.toInt64 := Int64.not_le.mp hle
    rw [decide_eq_true hmost, decide_eq_false hle]
    rfl

/-- The state after the header of an array was written at the frontier. -/
def headed (t : Target) (length : UInt64) (elem : Ty) (s : State Console) : State Console :=
  let base := s.globals.get t.frontier
  let header := Layout.encodeHeader length.toUInt32 (Layout.ElemKind.ofTy elem).code
  { s with
    memory := s.memory.setWord .i32 base.toUInt32.toNat header.toUInt64
    globals :=
      s.globals.set t.frontier (pastArray base.toUInt32 length.toUInt32 elem).toUInt64
    locals := s.locals.set arraySlot base }

/-- The header is written and the frontier moves, unless there is no room for the header. -/
theorem exec_heading {code : Block} {length : UInt64} (elem : Ty)
    (hslot : ∀ l, R l → l.get arraySlot = s.globals.get t.frontier) (hcode : Pushes R code length)
    (hR : R (s.locals.set arraySlot (s.globals.get t.frontier))) :
    let base := s.globals.get t.frontier
    execBlock linked
        ([.globalGet t.frontier, .localSet arraySlot] ++ (headerCode code elem ++ ([.store .i32] ++
          (pastCode code elem ++ ([.globalSet t.frontier] ++ []))))) s =
      if inBounds s.memory .i32 base.toUInt32 then .next (headed t length elem s)
      else .halt (.trap (.outOfBounds base.toUInt32))
        { s with locals := s.locals.set arraySlot base } := by
  intro base
  let header := Layout.encodeHeader length.toUInt32 (Layout.ElemKind.ofTy elem).code
  let started : State Console := { s with locals := s.locals.set arraySlot base }
  let written : State Console :=
    { started with memory := s.memory.setWord .i32 base.toUInt32.toNat header.toUInt64 }
  have hstart : execBlock linked [.globalGet t.frontier, .localSet arraySlot] s =
      .next started := rfl
  have hheader : execBlock linked (headerCode code elem) started =
      .next { started with stack := header.toUInt64 :: base :: s.stack } :=
    (turns_headerCode elem hslot hcode).exec hR
  have hpast : execBlock linked (pastCode code elem) written =
      .next (written.push (pastArray base.toUInt32 length.toUInt32 elem).toUInt64) :=
    (turns_pastCode elem hslot hcode).exec hR
  rw [execBlock_append hstart, execBlock_append hheader, execBlock_append_eq, exec_store]
  by_cases hbounds : inBounds s.memory .i32 base.toUInt32 = true
  · rw [if_pos hbounds, if_pos hbounds]
    exact execBlock_append hpast _
  · rw [if_neg hbounds, if_neg hbounds]
    rfl

/-- Behind the guards the header is written. -/
theorem exec_allocation {length : Expr} (hmax : 0 < t.maxArrayBytes)
    (hatomic : length.isAtomic = true) (hslot : arraySlot ∉ length.names) (elem : Ty)
    (hmsg : Inside s.memory t.capacity) :
    let n := atomValue s.locals.get length
    let base := s.globals.get t.frontier
    execBlock linked (allocation t (atomCode length) elem) s =
      if fits t n elem then
        if inBounds s.memory .i32 base.toUInt32 then .next (headed t n elem s)
        else .halt (.trap (.outOfBounds base.toUInt32))
          { s with locals := s.locals.set arraySlot base }
      else refused t.capacity s := by
  intro n base
  have hguards : execBlock linked
      (capacityGuards t (atomCode length) (Layout.width elem)) s =
        if fits t n elem then .next s else refused t.capacity s :=
    exec_capacityGuards (R := fun l => atomValue l.get length = n) hmax elem
      (pushes_atomCode hatomic fun _ hl => hl) rfl hmsg
  -- The length is read again when the scratch slot is set.
  have hkept : atomValue (s.locals.set arraySlot base).get length = n := by
    apply atomValue_congr
    intro name hname
    have hne : name ≠ arraySlot := by
      rintro rfl
      exact hslot hname
    rw [Slots.get_set, if_neg hne]
  rw [allocation_eq, execBlock_append_eq, hguards]
  by_cases hfits : fits t n elem = true
  · rw [if_pos hfits, if_pos hfits]
    exact exec_heading (R := fun l => l.get arraySlot = base ∧ atomValue l.get length = n) elem
      (fun _ hl => hl.1) (pushes_atomCode hatomic fun _ hl => hl.2)
      ⟨by rw [Slots.get_set, if_pos rfl], hkept⟩
  · rw [if_neg hfits, if_neg hfits]
    rfl

/-- On the way from one state to another the header of an array of `n` elements was written at the
frontier, and the frontier was moved past the array. -/
structure HeaderWritten (t : Target) (elem : Ty) (n : Int) (s s' : State Console) : Prop where
  header : s'.memory.word .i32 (s.globals.get t.frontier).toUInt32.toNat =
    (Layout.encodeHeader (UInt32.ofNat n.toNat) (Layout.ElemKind.ofTy elem).code).toUInt64
  size : s'.memory.size = s.memory.size
  bytes : ∀ address, address < (s.globals.get t.frontier).toUInt32.toNat ∨
    (s.globals.get t.frontier).toUInt32.toNat + Layout.headerSize ≤ address →
      s'.memory.byte address = s.memory.byte address
  array : s'.locals.get arraySlot = s.globals.get t.frontier
  locals : ∀ name, name ≠ arraySlot → s'.locals.get name = s.locals.get name
  frontier : ((s'.globals.get t.frontier).toNat : Int) =
    ((s.globals.get t.frontier).toNat + Layout.headerSize + n * Layout.width elem) % UInt32.size
  globals : ∀ name, name ≠ t.frontier → s'.globals.get name = s.globals.get name
  stack : s'.stack = s.stack
  host : s'.host = s.host
  fuel : s'.fuel = s.fuel

theorem headerWritten_headed {length : UInt64} {elem : Ty} (hfits : fits t length elem = true)
    (hbounds : inBounds s.memory .i32 (s.globals.get t.frontier).toUInt32 = true) :
    HeaderWritten t elem length.toInt64.toInt s (headed t length elem s) := by
  obtain ⟨hlength, -, -⟩ := toNat_of_fits hfits
  have hcount : UInt32.ofNat length.toInt64.toInt.toNat = length.toUInt32 := by
    rw [← hlength, Int.toNat_natCast, UInt32.ofNat_toNat]
  have hsize := of_decide_eq_true hbounds
  constructor
  · rw [hcount]
    refine (Memory.word_setWord_self s.memory _ (Or.inl rfl) hsize).trans ?_
    rw [narrow, if_pos rfl, UInt32.toUInt32_toUInt64]
  · exact Memory.size_setWord s.memory _
  · intro address houtside
    apply Memory.byte_write_of_outside
    rwa [Memory.length_bytesOfWord]
  · exact (Slots.get_set _ _ _ _).trans (if_pos rfl)
  · intro name hname
    exact (Slots.get_set _ _ _ _).trans (if_neg hname)
  · have hpast := toNat_pastArray_eq_mod
      (x := ⟨(s.globals.get t.frontier).toUInt32, length.toUInt32, elem⟩)
    rw [headed, Slots.get_set, if_pos rfl, UInt32.toNat_toUInt64, hpast, Extent.stop, Extent.bytes,
      Extent.count, ← hlength, UInt64.toNat_toUInt32]
    simp only [UInt32.size]
    omega
  · intro name hname
    exact (Slots.get_set _ _ _ _).trans (if_neg hname)
  · rfl
  · rfl
  · rfl

/-- The code that makes an array refuses its length exactly if no array of this length may be made.
Otherwise it writes the header at the frontier and moves the frontier past the array, unless there
is no room for the header. -/
theorem allocation_checks_length (length : Expr) (elem : Ty) (hmax : 0 < t.maxArrayBytes)
    (hatomic : length.isAtomic = true) (hslot : arraySlot ∉ length.names) (s : State Console)
    (hmessage : Inside s.memory t.capacity) :
    let n := (atomValue s.locals.get length).toInt64.toInt
    let base := s.globals.get t.frontier
    let outcome := execBlock linked (allocation t (atomCode length) elem) s
    (outcome = refused t.capacity s ↔ Unfit t elem n) ∧
      (¬Unfit t elem n →
        if inBounds s.memory .i32 base.toUInt32 then
          ∃ s', outcome = .next s' ∧ HeaderWritten t elem n s s'
        else
          outcome = .halt (.trap (.outOfBounds base.toUInt32))
            { s with locals := s.locals.set arraySlot base }) := by
  intro n base outcome
  have hexec : outcome = _ := exec_allocation hmax hatomic hslot elem hmessage
  by_cases hunfit : Unfit t elem n
  · have hfits := mt fits_iff.mp (not_not.mpr hunfit)
    rw [if_neg hfits] at hexec
    exact ⟨iff_of_true hexec hunfit, absurd hunfit⟩
  · have hfits := fits_iff.mpr hunfit
    rw [if_pos hfits] at hexec
    have hne : outcome ≠ refused t.capacity s := by
      rw [hexec, refused]
      split <;> simp
    refine ⟨iff_of_false hne hunfit, fun _ => ?_⟩
    by_cases hbounds : inBounds s.memory .i32 base.toUInt32 = true
    · rw [if_pos hbounds] at hexec ⊢
      exact ⟨_, hexec, headerWritten_headed hfits hbounds⟩
    · rw [if_neg hbounds] at hexec ⊢
      exact hexec

/-- Three elements fit, and a length whose lower half is three does not. -/
theorem three_allocation_checks_length :
    let t := Assembly.targetOf .standard
    let s (n : UInt64) : State Console := ⟨.zeros 64, [(t.frontier, 24)], [("n", n)], [7], {}, 4⟩
    let code := allocation t (atomCode (.var .int "n")) .int
    (∃ s', execBlock linked code (s 3) = .next s' ∧ HeaderWritten t .int 3 (s 3) s') ∧
      execBlock linked code (s 4294967299) = refused t.capacity (s 4294967299) := by
  intro t s code
  have hmessage : Inside (.zeros 64) t.capacity := by decide
  have hchecks (n : UInt64) := allocation_checks_length (t := t) (.var .int "n") .int (by decide)
    rfl (by decide) (s n) hmessage
  exact ⟨(hchecks 3).2 (by decide), (hchecks 4294967299).1.mpr (by decide)⟩

/-! ## Indices -/

/-- The length in the header of the array at an address. -/
def lengthIn (m : Memory) (array : UInt32) : UInt32 :=
  (Layout.decodeHeader (m.word .i32 array.toNat).toUInt32).1

section

variable {arrayCode indexCode : Block} {array index : UInt64}

theorem exec_lengthOf (harray : Pushes R arrayCode array) (hR : R s.locals)
    (hheader : inBounds s.memory .i32 array.toUInt32 = true) :
    execBlock linked (lengthOf arrayCode) s =
      .next (s.push (lengthIn s.memory array.toUInt32).toUInt64) := by
  have hreference : execBlock linked arrayCode s = .next (s.push array) := (harray _).exec hR
  rw [execBlock_lengthOf hreference, if_pos hheader]
  rfl

/-- The guards refuse exactly the indices that are not below the length. -/
theorem exec_accessGuards (harray : Pushes R arrayCode array) (hindex : Pushes R indexCode index)
    (hR : R s.locals) (hmsg : Inside s.memory t.index)
    (hheader : inBounds s.memory .i32 array.toUInt32 = true) :
    execBlock linked (accessGuards t arrayCode indexCode) s =
      if index.toInt64.toInt < 0 ∨
          ((lengthIn s.memory array.toUInt32).toNat : Int) ≤ index.toInt64.toInt then
        refused t.index s
      else .next s := by
  let length := lengthIn s.memory array.toUInt32
  have hnegative : Turns R s.stack (indexCode ++ [.constI64 0, .compare .i64 .ltS])
      (ofBool (decide (index.toInt64 < 0)) :: s.stack) :=
    (hindex _).append (.step (turns_constI64 _) (turns_compare rfl))
  have hlarge : execBlock linked (indexCode ++ lengthOf arrayCode ++ [.compare .i64 .geS]) s =
      .next (s.push (ofBool (decide (length.toUInt64.toInt64 ≤ index.toInt64)))) := by
    have hoperand : execBlock linked indexCode s = .next (s.push index) := (hindex _).exec hR
    have hlength : execBlock linked (lengthOf arrayCode) (s.push index) =
        .next ((s.push index).push length.toUInt64) :=
      exec_lengthOf (s := s.push index) harray hR hheader
    have hcompare : Turns R (length.toUInt64 :: index :: s.stack) [.compare .i64 .geS]
        (ofBool (decide (length.toUInt64.toInt64 ≤ index.toInt64)) :: s.stack) :=
      turns_compare rfl
    rw [List.append_assoc, execBlock_append hoperand, execBlock_append hlength]
    exact hcompare.exec (s := (s.push index).push length.toUInt64) hR
  simp only [Int64.lt_iff_toInt_lt, Int64.toInt_zero] at hnegative
  simp only [Int64.le_iff_toInt_le, toInt_length] at hlarge
  rw [accessGuards, execBlock_append_eq, exec_guard (hnegative.exec hR) hmsg]
  by_cases hneg : index.toInt64.toInt < 0
  · rw [if_pos (Or.inl hneg), if_pos (decide_eq_true hneg)]
    rfl
  · rw [if_neg (by simpa using hneg), Outcome.andThen, exec_guard hlarge hmsg]
    simp only [hneg, false_or, decide_eq_true_eq]
    rfl

/-- Behind the guards the address is put on the stack. -/
theorem exec_elementRef (elem : Ty) (harray : Pushes R arrayCode array)
    (hindex : Pushes R indexCode index) (hR : R s.locals) (hmsg : Inside s.memory t.index)
    (hheader : inBounds s.memory .i32 array.toUInt32 = true) :
    execBlock linked (accessGuards t arrayCode indexCode ++
        elementAddress arrayCode indexCode (Layout.width elem)) s =
      if index.toInt64.toInt < 0 ∨
          ((lengthIn s.memory array.toUInt32).toNat : Int) ≤ index.toInt64.toInt then
        refused t.index s
      else .next (s.push (elementAt elem array index).toUInt64) := by
  rw [execBlock_append_eq, exec_accessGuards harray hindex hR hmsg hheader]
  split
  · rfl
  · exact (turns_elementAddress elem harray hindex).exec hR

theorem toNat_elementAt_eq_emod (elem : Ty) (hnonneg : 0 ≤ index.toInt64.toInt) :
    ((elementAt elem array index).toNat : Int) =
      (array.toUInt32.toNat + Layout.headerSize + index.toInt64.toInt * Layout.width elem) %
        UInt32.size := by
  rw [toNat_elementAt_eq_mod, ← toNat_eq_toInt hnonneg]
  push_cast
  rfl

/-- Elements of an array that does not wrap lie in it. -/
theorem elementAt_inside {elem : Ty} {length : Nat} (hnonneg : 0 ≤ index.toInt64.toInt)
    (hlt : index.toInt64.toInt < length)
    (hroom : array.toUInt32.toNat + Layout.headerSize + length * Layout.width elem ≤ UInt32.size) :
    let address := (elementAt elem array index).toNat
    (address : Int) =
        array.toUInt32.toNat + Layout.headerSize + index.toInt64.toInt * Layout.width elem ∧
      array.toUInt32.toNat + Layout.headerSize ≤ address ∧
      address + Layout.width elem ≤
        array.toUInt32.toNat + Layout.headerSize + length * Layout.width elem := by
  intro address
  have haddress : (address : Int) = _ := toNat_elementAt_eq_emod elem hnonneg
  rcases width_eq elem with hwidth | hwidth
  all_goals
    rw [hwidth] at hroom haddress ⊢
    simp only [UInt32.size] at hroom haddress
    omega

end

theorem emitted_elementRef_var {elem : Ty} {index : Expr} (hloop : t.tier.admits .loop = true)
    (helem : elem.isValid = true) (hatomic : index.isAtomic = true)
    (hvalid : index.ty.isValid = true) (name : String) :
    Emitted (elementRef t (.var (.array elem) name) index) fun ref =>
      ref = (accessGuards t [.localGet name] (atomCode index) ++
        elementAddress [.localGet name] (atomCode index) (Layout.width elem), elem) :=
  emitted_refCode hloop rfl rfl helem hatomic hvalid

/-- Every array variable and every literal or variable as an index have code for the address of an
element.  It refuses exactly the indices that are not below the length in the header, and otherwise
puts the address on the stack. -/
theorem elementRef_checks_index (elem : Ty) (name : String) (index : Expr)
    (hloop : t.tier.admits .loop = true) (helem : elem.isValid = true)
    (hatomic : index.isAtomic = true) (hvalid : index.ty.isValid = true) (p : Progress) :
    ∃ code p', (elementRef t (.var (.array elem) name) index).run p = (.ok (code, elem), p') ∧
      ∀ s : State Console,
        let array := (s.locals.get name).toUInt32
        let i := (atomValue s.locals.get index).toInt64.toInt
        let length := (lengthIn s.memory array).toNat
        let width := Layout.width elem
        let outcome := execBlock linked code s
        Inside s.memory t.index → inBounds s.memory .i32 array = true →
          (outcome = refused t.index s ↔ i < 0 ∨ (length : Int) ≤ i) ∧
          (0 ≤ i → i < length → ∃ address : UInt32,
            outcome = .next (s.push address.toUInt64) ∧
            (address.toNat : Int) =
              (array.toNat + Layout.headerSize + i * width) % UInt32.size ∧
            (array.toNat + Layout.headerSize + length * width ≤ UInt32.size →
              (address.toNat : Int) = array.toNat + Layout.headerSize + i * width ∧
              array.toNat + Layout.headerSize ≤ address.toNat ∧
              address.toNat + width ≤ array.toNat + Layout.headerSize + length * width)) := by
  obtain ⟨_, p', hrun, rfl⟩ := emitted_elementRef_var hloop helem hatomic hvalid name p
  refine ⟨_, p', hrun, ?_⟩
  intro s array i length width outcome hmessage hheader
  have harray : Pushes (· = s.locals) [.localGet name] (s.locals.get name) := by
    intro st
    apply turns_localGet
    rintro _ rfl
    rfl
  have hindex : Pushes (· = s.locals) (atomCode index) (atomValue s.locals.get index) := by
    apply pushes_atomCode hatomic
    rintro _ rfl
    rfl
  have hexec : outcome = _ := exec_elementRef elem harray hindex rfl hmessage hheader
  by_cases hrefused : i < 0 ∨ (length : Int) ≤ i
  · have hequal := hexec.trans (if_pos hrefused)
    exact ⟨iff_of_true hequal hrefused, fun _ _ => absurd hrefused (by omega)⟩
  · have hequal := hexec.trans (if_neg hrefused)
    constructor
    · rw [hequal, refused]
      exact iff_of_false (by simp) hrefused
    · intro hnonneg hlt
      exact ⟨_, hequal, toNat_elementAt_eq_emod elem hnonneg, elementAt_inside hnonneg hlt⟩

/-- The last of three elements, and an index whose lower half is two. -/
theorem last_elementRef_checks_index :
    let t := Assembly.targetOf .standard
    let header := Layout.encodeHeader 3 (Layout.ElemKind.ofTy .int).code
    let memory := (Memory.zeros 64).setWord .i32 24 header.toUInt64
    let s (i : UInt64) : State Console :=
      ⟨memory, [(t.frontier, 52)], [("a", 24), ("i", i)], [7], {}, 4⟩
    ∃ code p', (elementRef t (.var (.array .int) "a") (.var .int "i")).run {} =
        (.ok (code, .int), p') ∧
      execBlock linked code (s 2) = .next ((s 2).push 44) ∧
      execBlock linked code (s 4294967298) = refused t.index (s 4294967298) := by
  intro t header memory s
  obtain ⟨code, p', hrun, hchecks⟩ :=
    elementRef_checks_index (t := t) .int "a" (.var .int "i") rfl rfl rfl rfl {}
  refine ⟨code, p', hrun, ?_, (hchecks (s 4294967298) (by decide) (by decide)).1.mpr (by decide)⟩
  obtain ⟨address, hexec, -, hexact⟩ :=
    (hchecks (s 2) (by decide) (by decide)).2 (by decide) (by decide)
  obtain ⟨haddress, -⟩ := hexact (by decide)
  have hvalue : address = 44 := UInt32.toNat_inj.mp (Int.ofNat_inj.mp haddress)
  rw [hexec, hvalue]
  rfl

end

end ArrayLang.Reference
