import ArrayLang.Proofs.Code.Typed
import ArrayLang.Proofs.Emit.Exprs

/-!
# Emitted code is typed

The code of a well-typed expression takes any stack to the same stack with a value of the type of the
expression on it, and the code of a statement leaves every stack as it was.  The labels around code
do not matter, since it branches to labels of its own only.

What slots code may use depends on what is remembered while it is made: the scratch slots are
declared if some code uses them.
-/

namespace ArrayLang.Emit

open Source Code Typing Reference

/-! ## Stacks -/

/-- Code takes some values from the stack and leaves others, whatever lies below them. -/
def Takes (Γ : Signature) (ins : List Kind) (code : Block) (outs : List Kind) : Prop :=
  ∀ L st, Typed Γ L (ins ++ st) code (outs ++ st)

/-- What the code of an expression leaves on the stack. -/
def kindsOf (ty : Ty) : List Kind := if ty = .void then [] else [.value (cellType ty)]

section

variable {Γ : Signature} {ins mids outs : List Kind} {first second : Block}

theorem Takes.append (hfirst : Takes Γ ins first mids) (hsecond : Takes Γ mids second outs) :
    Takes Γ ins (first ++ second) outs :=
  fun L st => (hfirst L st).append (hsecond L st)

/-- Values that lie deeper in the stack stay there. -/
theorem Takes.below (h : Takes Γ ins first outs) (rest : List Kind) :
    Takes Γ (ins ++ rest) first (outs ++ rest) := by
  intro L st
  rw [List.append_assoc, List.append_assoc]
  exact h L (rest ++ st)

theorem Takes.above (h : Takes Γ [] first outs) (rest : List Kind) :
    Takes Γ rest first (outs ++ rest) :=
  h.below rest

theorem takes_nil : Takes Γ ins [] ins := fun _ _ => .nil

end

theorem kindsOf_value {ty : Ty} (h : IsValue ty) : kindsOf ty = [.value (cellType ty)] := by
  rw [kindsOf, if_neg h.ne_void]

theorem cellType_mem {ty : Ty} (h : IsValue ty) : cellType ty ∈ [.i32, .i64] := by
  cases h <;> simp [cellType, Layout.valType?]

/-! ## Steps of code generation -/

/-- A message lies in a memory of some size. -/
def Message.Inside (msg : Message) (size : Nat) : Prop :=
  msg.offset.toUInt32.toNat + msg.length.toUInt32.toNat ≤ size

/-- A signature has what code needs: slots for the variables, a frontier if there are arrays, the
messages, and the scratch slots if they are in use. -/
structure Provides (Γ : Signature) (t : Target) (env : Env) (scratch : Bool) : Prop where
  vars : ∀ name ty, env.find? name = some ty → Γ.local? name = some (cellType ty)
  frontier : t.tier.admits .array = true → Γ.global? t.frontier = some .i32
  capacity : t.capacity.Inside Γ.memorySize
  index : t.index.Inside Γ.memorySize
  slots : scratch = true → Γ.local? arraySlot = some .i32 ∧ Γ.local? cursorSlot = some .i32

/-- What a step of code generation makes, if it succeeds, has a property for every signature that
provides what is needed after the step.  No step puts the scratch slots out of use. -/
def Makes (t : Target) (env : Env) {α : Type} (step : Emission α)
    (Q : Signature → α → Prop) : Prop :=
  ∀ p a p', step.run p = (.ok a, p') →
    (p.scratch = true → p'.scratch = true) ∧ ∀ Γ, Provides Γ t env p'.scratch → Q Γ a

section

variable {t : Target} {env : Env} {α β : Type} {Q : Signature → α → Prop}

theorem Makes.pure {a : α} (h : ∀ Γ, Provides Γ t env false → Q Γ a) :
    Makes t env (Pure.pure a) Q := by
  rintro p _ _ ⟨rfl, rfl⟩
  constructor
  · exact id
  · intro Γ hΓ
    apply h
    exact ⟨hΓ.vars, hΓ.frontier, hΓ.capacity, hΓ.index, by simp⟩

theorem Makes.throw {e : Error} : Makes t env (throw e : Emission α) Q := fun _ _ _ h => nomatch h

theorem Makes.bind {R : Signature → β → Prop} {x : Emission α} {f : α → Emission β}
    (hx : Makes t env x Q) (hf : ∀ a, Makes t env (f a) fun Γ b => Q Γ a → R Γ b) :
    Makes t env (x >>= f) R := by
  intro p b p'' hrun
  rw [Emission.run_bind] at hrun
  rcases hfirst : x.run p with ⟨answer, p'⟩
  rw [hfirst] at hrun
  cases answer with
  | error e => exact nomatch hrun
  | ok a =>
      obtain ⟨hkeep, hQ⟩ := hx p a p' hfirst
      obtain ⟨hkeep', hR⟩ := hf a p' b p'' hrun
      constructor
      · exact fun h => hkeep' (hkeep h)
      · intro Γ hΓ
        apply hR Γ hΓ
        apply hQ
        exact ⟨hΓ.vars, hΓ.frontier, hΓ.capacity, hΓ.index, fun h => hΓ.slots (hkeep' h)⟩

theorem Makes.throw_bind {R : Signature → β → Prop} {e : Error} {f : α → Emission β} :
    Makes t env (MonadExcept.throw e >>= f) R :=
  fun _ _ _ h => nomatch h

theorem Makes.mono {R : Signature → α → Prop} {x : Emission α} (hx : Makes t env x Q)
    (h : ∀ Γ a, Q Γ a → R Γ a) : Makes t env x R := by
  intro p a p' hrun
  obtain ⟨hkeep, hQ⟩ := hx p a p' hrun
  exact ⟨hkeep, fun Γ hΓ => h Γ a (hQ Γ hΓ)⟩

theorem makes_freshLabels (kind : String) :
    Makes t env (freshLabels kind) fun _ labels => labels.exit ≠ labels.start := by
  rintro p _ _ ⟨rfl, rfl⟩
  exact ⟨id, fun _ _ => loopLabels_exit_ne_start kind _⟩

theorem makes_useScratch :
    Makes t env useScratch fun Γ _ =>
      Γ.local? arraySlot = some .i32 ∧ Γ.local? cursorSlot = some .i32 := by
  rintro p _ _ ⟨rfl, rfl⟩
  exact ⟨fun _ => rfl, fun Γ hΓ => hΓ.slots rfl⟩

theorem makes_requireTier (what : String) (needed : Tier) :
    Makes t env (requireTier t what needed) fun _ _ => True := by
  rw [requireTier]
  split
  · exact .pure fun _ _ => trivial
  · exact .throw

theorem makes_accept (e : Expr) : Makes t env (accept t e) fun _ _ => True := by
  rw [accept]
  split
  · exact .throw_bind
  · exact makes_requireTier _ _

theorem makes_representation (ty : Ty) (otherwise : Untyped) :
    Makes t env (representation ty otherwise) fun _ vt => Layout.valType? ty = some vt := by
  rw [representation]
  split
  · next hvt => exact .pure fun _ _ => hvt
  · exact .throw

theorem makes_elemType (ty : Ty) :
    Makes t env (elemType ty) fun _ elem => Layout.elemType? ty = some elem := by
  rw [elemType]
  split
  · next helem => exact .pure fun _ _ => helem
  · exact .throw

/-- The code of a literal or a variable leaves its value. -/
theorem makes_atomCode {e : Expr} {ty : Ty} (h : HasType t.tier env e ty)
    (hatomic : e.isAtomic = true) {Γ : Signature} {scratch : Bool}
    (hΓ : Provides Γ t env scratch) : Takes Γ [] (atomCode e) [.value (cellType ty)] := by
  intro L st
  cases h with
  | int => exact .step .constI64 .nil
  | bool => exact .step .constI32 .nil
  | var _ hfind => exact .step (.localGet (hΓ.vars _ _ hfind)) .nil
  | _ => exact nomatch hatomic

theorem makes_atom {e : Expr} {ty : Ty} (what : String) (h : HasType t.tier env e ty) :
    Makes t env (atom t what e) fun Γ code => Takes Γ [] code [.value (cellType ty)] := by
  rw [atom]
  cases hatomic : e.isAtomic with
  | false => exact .throw_bind
  | true =>
      refine (makes_accept e).bind fun _ => ?_
      exact .pure fun Γ hΓ _ => makes_atomCode h hatomic hΓ

end

/-! ## Arrays -/

section

variable {Γ : Signature} {msg : Message} {outs : List Kind}

/-- A report does not go on, so what comes next may ask for any stack. -/
theorem takes_report (h : msg.Inside Γ.memorySize) : Takes Γ [] (report msg) outs :=
  fun _ _ => .step .constant (.step .constant (.step (.report h) (.step .trap .nil)))

theorem takes_guard {cond : Block} (hcond : Takes Γ [] cond [.value .i32])
    (hmsg : msg.Inside Γ.memorySize) : Takes Γ [] (guard cond msg) [] := by
  apply hcond.append
  intro L st
  exact .ifElse (takes_report hmsg L st) .nil .nil

theorem takes_compare (ty : ValType) (op : CompareOp) (hty : ty ∈ [.i32, .i64])
    (hop : op ∈ CompareOp.named) :
    Takes Γ [.value ty, .value ty] [.compare ty op] [.value .i32] :=
  fun _ _ => .step (.compare hty hop) .nil

theorem takes_lengthOf {array : Block} (harray : Takes Γ [] array [.value .i32]) :
    Takes Γ [] (lengthOf array) [.value .i64] := by
  apply harray.append
  intro L st
  exact .step (.load (by decide)) (.step .constI32 (.step (.arith (by decide) (by decide))
    (.step .extendU .nil)))

theorem takes_elementAddress {array index : Block} (width : Nat)
    (harray : Takes Γ [] array [.value .i32]) (hindex : Takes Γ [] index [.value .i64]) :
    Takes Γ [] (elementAddress array index width) [.value .i32] := by
  apply (harray.append (hindex.above _)).append
  intro L st
  exact .step .wrap (.step .constI32 (.step (.arith (by decide) (by decide)) (.step .constI32
    (.step (.arith (by decide) (by decide)) (.step (.arith (by decide) (by decide)) .nil)))))

variable {t : Target} {env : Env} {scratch : Bool}

theorem takes_capacityGuards {length : Block} (width : Nat) (hΓ : Provides Γ t env scratch)
    (hlength : Takes Γ [] length [.value .i64]) :
    Takes Γ [] (capacityGuards t length width) [] := by
  have hbound (n : Int64) (op : CompareOp) (hop : op ∈ CompareOp.named) :
      Takes Γ [] (length ++ [.constI64 n, .compare .i64 op]) [.value .i32] := by
    apply hlength.append
    intro L st
    exact .step .constI64 (.step (.compare (by decide) hop) .nil)
  exact (takes_guard (hbound _ _ (by decide)) hΓ.capacity).append
    (takes_guard (hbound _ _ (by decide)) hΓ.capacity)

theorem takes_accessGuards {array index : Block} (hΓ : Provides Γ t env scratch)
    (harray : Takes Γ [] array [.value .i32]) (hindex : Takes Γ [] index [.value .i64]) :
    Takes Γ [] (accessGuards t array index) [] := by
  have hnegative : Takes Γ [] (index ++ [.constI64 0, .compare .i64 .ltS]) [.value .i32] := by
    apply hindex.append
    intro L st
    exact .step .constI64 (.step (.compare (by decide) (by decide)) .nil)
  have hbeyond : Takes Γ [] (index ++ lengthOf array ++ [.compare .i64 .geS]) [.value .i32] :=
    (hindex.append ((takes_lengthOf harray).above _)).append
      (takes_compare .i64 .geS (by decide) (by decide))
  exact (takes_guard hnegative hΓ.index).append (takes_guard hbeyond hΓ.index)

theorem takes_allocation {length : Block} (elem : Ty) (hΓ : Provides Γ t env scratch)
    (harray : t.tier.admits .array = true) (hslot : Γ.local? arraySlot = some .i32)
    (hlength : Takes Γ [] length [.value .i64]) : Takes Γ [] (allocation t length elem) [] := by
  have hfrontier := hΓ.frontier harray
  have hbase : Takes Γ []
      [.globalGet t.frontier, .localSet arraySlot, .localGet arraySlot] [.value .i32] :=
    fun L st => .step (.globalGet hfrontier) (.step (.localSet hslot) (.step (.localGet hslot) .nil))
  have hheader : Takes Γ [.value .i64, .value .i32]
      [.convert .wrap, i32Const Layout.lengthShift, .arith .i32 .shl,
        .constI32 (Layout.ElemKind.ofTy elem).code.toInt32, .arith .i32 .xor, .store .i32] [] :=
    fun L st => .step .wrap (.step .constI32 (.step (.arith (by decide) (by decide)) (.step .constI32
      (.step (.arith (by decide) (by decide)) (.step (.store (by decide)) .nil)))))
  have hcells : Takes Γ []
      [.localGet arraySlot, i32Const Layout.headerSize, .arith .i32 .add] [.value .i32] :=
    fun L st => .step (.localGet hslot) (.step .constI32
      (.step (.arith (by decide) (by decide)) .nil))
  have hpast : Takes Γ [.value .i64, .value .i32]
      [.convert .wrap, i32Const (Layout.width elem), .arith .i32 .mul, .arith .i32 .add,
        .globalSet t.frontier] [] :=
    fun L st => .step .wrap (.step .constI32 (.step (.arith (by decide) (by decide))
      (.step (.arith (by decide) (by decide)) (.step (.globalSet hfrontier) .nil))))
  have hguards := takes_capacityGuards (Layout.width elem) hΓ hlength
  rw [allocation]
  exact (((((hguards.append hbase).append (hlength.above _)).append hheader).append hcells).append
    (hlength.above _)).append hpast

theorem takes_elementStore {elem : Ty} {vt : ValType} {value : Block} (position : Nat)
    (hvt : vt ∈ [.i32, .i64]) (hslot : Γ.local? arraySlot = some .i32)
    (hvalue : Takes Γ [] value [.value vt]) :
    Takes Γ [] (elementStore elem vt position value) [] := by
  have haddress : Takes Γ [] [.localGet arraySlot,
      i32Const (Layout.headerSize + position * Layout.width elem), .arith .i32 .add]
      [.value .i32] :=
    fun L st => .step (.localGet hslot) (.step .constI32
      (.step (.arith (by decide) (by decide)) .nil))
  have hstore : Takes Γ [.value vt, .value .i32] [.store vt] [] :=
    fun L st => .step (.store hvt) .nil
  exact (haddress.append (hvalue.above _)).append hstore

/-- A loop inside a block: the code in it may start again and may leave. -/
theorem takes_region {labels : LoopLabels} {body : Block} (hlabels : labels.exit ≠ labels.start)
    (hbody : ∀ L st, L.lookup labels.exit = some st → L.lookup labels.start = some st →
      Typed Γ L st body st) :
    Takes Γ [] [.block labels.exit [.loop labels.start body]] [] := by
  intro L st
  refine .block (.loop (hbody _ st ?_ List.lookup_cons_self) .nil) .nil
  rw [List.lookup_cons, beq_false_of_ne hlabels]
  exact List.lookup_cons_self

theorem takes_fillLoop {labels : LoopLabels} {vt : ValType} {fill : Block} (elem : Ty)
    (hlabels : labels.exit ≠ labels.start) (hΓ : Provides Γ t env scratch)
    (harray : t.tier.admits .array = true) (hvt : vt ∈ [.i32, .i64])
    (hslot : Γ.local? cursorSlot = some .i32) (hfill : Takes Γ [] fill [.value vt]) :
    Takes Γ [] [fillLoop t labels elem vt fill] [] := by
  apply takes_region hlabels
  intro L st hexit hstart
  have htest : Typed Γ L st
      [.localGet cursorSlot, .globalGet t.frontier, .compare .i32 .ltU, i32Const 0,
        .compare .i32 .eq, .branchIf labels.exit, .localGet cursorSlot] (.value .i32 :: st) :=
    .step (.localGet hslot) (.step (.globalGet (hΓ.frontier harray)) (.step (.compare (by decide)
      (by decide)) (.step .constI32 (.step (.compare (by decide) (by decide))
      (.step (.branchIf hexit) (.step (.localGet hslot) .nil))))))
  have hadvance : Typed Γ L (.value vt :: .value .i32 :: st)
      [.store vt, .localGet cursorSlot, i32Const (Layout.width elem), .arith .i32 .add,
        .localSet cursorSlot, .branch labels.start] st :=
    .step (.store hvt) (.step (.localGet hslot) (.step .constI32 (.step (.arith (by decide)
      (by decide)) (.step (.localSet hslot) (.step (.branch hstart) .nil)))))
  exact (htest.append (hfill _ _)).append hadvance

end

section

variable {t : Target} {env : Env}

theorem makes_elementStores {elem : Ty} {vt : ValType} {position : Nat} {elems : List Expr}
    (helem : IsValue elem) (helems : ∀ e ∈ elems, HasType t.tier env e elem) :
    Makes t env (elementStores t elem vt position elems) fun Γ code =>
      vt = cellType elem → Γ.local? arraySlot = some .i32 → Takes Γ [] code [] := by
  induction elems generalizing position with
  | nil => exact .pure fun Γ _ _ _ => takes_nil
  | cons e rest ih =>
      obtain ⟨he, hrest⟩ := List.forall_mem_cons.mp helems
      rw [elementStores]
      refine (makes_atom _ he).bind fun value => (ih hrest).bind fun stores => .pure ?_
      intro Γ _ hstores hvalue hvt hslot
      subst hvt
      exact (takes_elementStore position (cellType_mem helem) hslot hvalue).append
        (hstores rfl hslot)

theorem eq_cellType {ty : Ty} {vt : ValType} (h : Layout.valType? ty = some vt) :
    vt = cellType ty := by
  rw [cellType, h]
  rfl

theorem eq_elem {elem elem' : Ty} (h : Layout.elemType? (.array elem) = some elem') :
    elem' = elem := by
  simp only [Layout.elemType?, Ty.elem?] at h
  split at h
  · exact (Option.some.inj h).symm
  · cases h

theorem makes_arrayLit {elem : Ty} {elems : List Expr} (harray : t.tier.admits .array = true)
    (helem : IsValue elem) (helems : ∀ e ∈ elems, HasType t.tier env e elem) :
    Makes t env (arrayLit t (.array elem) elem elems) fun Γ code =>
      Takes Γ [] code [.value .i32] := by
  rw [arrayLit, if_pos helem.isValid, pure_bind]
  refine (makes_representation elem _).bind fun vt => makes_useScratch.bind fun _ =>
    (makes_elementStores helem helems).bind fun stores => .pure ?_
  intro Γ hΓ hstores hslots hvt
  have hlength : Takes Γ [] [.constI64 (Int64.ofNat elems.length)] [.value .i64] :=
    fun L st => .step .constI64 .nil
  have hresult : Takes Γ [] [.localGet arraySlot] [.value .i32] :=
    fun L st => .step (.localGet hslots.1) .nil
  exact ((takes_allocation elem hΓ harray hslots.1 hlength).append
    (hstores (eq_cellType hvt) hslots.1)).append hresult

theorem makes_arrayFill {elem : Ty} {length fill : Expr} (harray : t.tier.admits .array = true)
    (helem : IsValue elem) (hlength : HasType t.tier env length .int)
    (hfill : HasType t.tier env fill elem) :
    Makes t env (arrayFill t (.array elem) length fill) fun Γ code =>
      Takes Γ [] code [.value .i32] := by
  rw [arrayFill]
  refine (makes_elemType _).bind fun elem' => (makes_representation elem' _).bind fun vt =>
    (makes_atom _ hlength).bind fun lengthCode => (makes_atom _ hfill).bind fun fillCode =>
    (makes_freshLabels _).bind fun labels => makes_useScratch.bind fun _ => .pure ?_
  intro Γ hΓ hslots hlabels hfillCode hlengthCode hvt helem'
  rw [eq_elem helem'] at hvt ⊢
  rw [eq_cellType hvt]
  have hcursor : Takes Γ [] [.localGet arraySlot, i32Const Layout.headerSize, .arith .i32 .add,
      .localSet cursorSlot] [] :=
    fun L st => .step (.localGet hslots.1) (.step .constI32 (.step (.arith (by decide) (by decide))
      (.step (.localSet hslots.2) .nil)))
  have hloop := takes_fillLoop elem hlabels hΓ harray (cellType_mem helem) hslots.2 hfillCode
  have hresult : Takes Γ [] [.localGet arraySlot] [.value .i32] :=
    fun L st => .step (.localGet hslots.1) .nil
  exact (takes_allocation elem hΓ harray hslots.1 hlengthCode).append
    (hcursor.append (hloop.append hresult))

theorem makes_elementRef {elem : Ty} {array index : Expr}
    (harray : HasType t.tier env array (.array elem)) (hindex : HasType t.tier env index .int) :
    Makes t env (elementRef t array index) fun Γ made =>
      Takes Γ [] made.1 [.value .i32] ∧ made.2 = elem := by
  rw [elementRef]
  refine (makes_atom _ harray).bind fun arr => (makes_atom _ hindex).bind fun idx =>
    (makes_elemType _).bind fun elem' => .pure ?_
  intro Γ hΓ helem' hidx harr
  rw [harray.ty_eq] at helem'
  constructor
  · exact (takes_accessGuards hΓ harr hidx).append (takes_elementAddress _ harr hidx)
  · exact eq_elem helem'

theorem makes_elementRead {elem : Ty} {array index : Expr}
    (harray : HasType t.tier env array (.array elem)) (hindex : HasType t.tier env index .int) :
    Makes t env (elementRead t array index) fun Γ code =>
      Takes Γ [] code [.value (cellType elem)] := by
  rw [elementRead]
  apply (makes_elementRef harray hindex).bind
  rintro ⟨address, elem'⟩
  refine (makes_representation elem' _).bind fun vt => .pure ?_
  rintro Γ _ hvt ⟨haddress, rfl⟩
  obtain rfl := eq_cellType hvt
  apply haddress.append
  intro L st
  exact .step (.load (cellType_mem harray.elem_isValue)) .nil

/-! ## Expressions -/

theorem isValue_of_mem {ty : Ty} (h : ty ∈ [.int, .bool]) : IsValue ty := by
  simp only [List.mem_cons, List.not_mem_nil, or_false] at h
  rcases h with rfl | rfl
  · exact .int
  · exact .bool

theorem takes_binaryInstr_arith {Γ : Signature} {op : BinaryOp} {ty : Ty}
    (h : op ∈ [.add, .sub, .mul]) :
    Takes Γ [.value .i64, .value .i64] [binaryInstr op ty] [.value .i64] := by
  simp only [List.mem_cons, List.not_mem_nil, or_false] at h
  rcases h with rfl | rfl | rfl <;> exact fun _ _ => .step (.arith (by decide) (by decide)) .nil

theorem takes_binaryInstr_order {Γ : Signature} {op : BinaryOp} {ty : Ty}
    (h : op ∈ [.lt, .le, .gt, .ge]) :
    Takes Γ [.value .i64, .value .i64] [binaryInstr op ty] [.value .i32] := by
  simp only [List.mem_cons, List.not_mem_nil, or_false] at h
  rcases h with rfl | rfl | rfl | rfl <;> exact takes_compare _ _ (by decide) (by decide)

theorem takes_binaryInstr_equality {Γ : Signature} {op : BinaryOp} {ty : Ty}
    (h : op ∈ [.eq, .ne]) (hty : ty ∈ [.int, .bool]) :
    Takes Γ [.value (cellType ty), .value (cellType ty)] [binaryInstr op ty] [.value .i32] := by
  simp only [List.mem_cons, List.not_mem_nil, or_false] at h hty
  rcases h with rfl | rfl <;> rcases hty with rfl | rfl <;>
    exact takes_compare _ _ (by decide) (by decide)

theorem takes_call {Γ : Signature} {f : Host.Function} {params results : List ValType}
    (h : f ≠ .reportError) (hparams : f.params = params) (hresults : f.results = results) :
    Takes Γ (stacked params []) [.call f.name] (stacked results []) := by
  subst hparams hresults
  intro L st
  have hcall : Simple Γ L (stacked f.params st) (.call f.name) (stacked f.results st) := .call h
  simp only [stacked, List.append_nil] at hcall ⊢
  exact .step hcall .nil

theorem makes_strict {op : BinaryOp} {ty : Ty} {left right : Expr} {vt : ValType}
    {outs : List Kind} (hop : IsStrict op left.ty)
    (hleft : Makes t env (expr t left) fun Γ code => Takes Γ [] code [.value vt])
    (hright : Makes t env (expr t right) fun Γ code => Takes Γ [] code [.value vt])
    (hinstr : ∀ Γ, Takes Γ [.value vt, .value vt] [binaryInstr op left.ty] outs) :
    Makes t env (expr t (.binary ty op left right)) fun Γ code => Takes Γ [] code outs := by
  rw [expr]
  refine (makes_accept _).bind fun _ => hleft.bind fun l => hright.bind fun r => ?_
  rw [binaryCode_eq hop]
  refine .pure ?_
  intro Γ _ hr hl _
  exact (hl.append (hr.above _)).append (hinstr Γ)

theorem makes_printFunction {ty : Ty} (h : IsValue ty) :
    Makes t env (printFunction ty) fun _ f =>
      f ≠ .reportError ∧ f.params = [cellType ty] ∧ f.results = [] := by
  cases h with
  | int | bool => exact .pure fun _ _ => by decide
  | array => exact .pure fun _ _ => ⟨by decide, rfl, rfl⟩

theorem makes_exprs_singleton {x : Expr} {outs : List Kind}
    (h : Makes t env (expr t x) fun Γ code => Takes Γ [] code outs) :
    Makes t env (exprs t [x]) fun Γ code => Takes Γ [] code outs := by
  simp only [exprs, pure_bind, List.append_nil]
  exact h.bind fun code => .pure fun Γ _ hcode => hcode

/-- The code of a well-typed expression leaves a value of its type. -/
theorem makes_expr {e : Expr} {ty : Ty} (h : HasType t.tier env e ty) :
    Makes t env (expr t e) fun Γ code => Takes Γ [] code (kindsOf ty) := by
  have hatom {e : Expr} {ty : Ty} (h : HasType t.tier env e ty) (hvalue : IsValue ty)
      (hatomic : e.isAtomic = true) :
      Makes t env (do accept t e; return atomCode e) fun Γ code =>
        Takes Γ [] code (kindsOf ty) := by
    rw [kindsOf_value hvalue]
    exact (makes_accept e).bind fun _ => .pure fun Γ hΓ _ => makes_atomCode h hatomic hΓ
  induction h with
  | int hloop =>
      rw [expr]
      exact hatom (.int hloop) .int rfl
  | bool hloop =>
      rw [expr]
      exact hatom (.bool hloop) .bool rfl
  | var hloop hfind hvalue =>
      rw [expr]
      exact hatom (.var hloop hfind hvalue) hvalue rfl
  | neg _ ih =>
      rw [expr]
      refine (makes_accept _).bind fun _ => ih.bind fun x => .pure ?_
      intro Γ _ hx _ L st
      exact .step .constI64 ((hx _ _).append (.step (.arith (by decide) (by decide)) .nil))
  | not _ ih =>
      rw [expr]
      refine (makes_accept _).bind fun _ => ih.bind fun x => .pure ?_
      intro Γ _ hx _ L st
      exact (hx _ _).append (.step .constI32 (.step (.compare (by decide) (by decide)) .nil))
  | arith hop _ _ ihl ihr =>
      refine makes_strict (Or.inl ?_) ihl ihr ?_
      · exact List.mem_append_left [.lt, .le, .gt, .ge, .is] hop
      · exact fun Γ => takes_binaryInstr_arith hop
  | order hop _ _ ihl ihr =>
      refine makes_strict (Or.inl ?_) ihl ihr ?_
      · exact List.mem_append_right [.add, .sub, .mul] (List.mem_append_left [.is] hop)
      · exact fun Γ => takes_binaryInstr_order hop
  | equality hop hty hl _ ihl ihr =>
      have hvalue : IsValue _ := isValue_of_mem hty
      rw [kindsOf_value hvalue] at ihl ihr
      refine makes_strict (Or.inr ⟨hop, ?_⟩) ihl ihr ?_
      · rw [hl.ty_eq]
        exact hty
      · rw [hl.ty_eq]
        exact fun Γ => takes_binaryInstr_equality hop hty
  | identity _ _ ihl ihr =>
      refine makes_strict (Or.inl (by simp)) ihl ihr ?_
      exact fun Γ => takes_compare .i32 .eq (by decide) (by decide)
  | logic hop _ _ ihl ihr =>
      rw [expr]
      refine (makes_accept _).bind fun _ => ihl.bind fun l => ihr.bind fun r => ?_
      simp only [List.mem_cons, List.not_mem_nil, or_false] at hop
      rcases hop with rfl | rfl
      · refine .pure fun Γ _ hr hl _ => hl.append fun L st => ?_
        exact .ifElse (hr L st) (.step .constI32 .nil) .nil
      · refine .pure fun Γ _ hr hl _ => hl.append fun L st => ?_
        exact .ifElse (.step .constI32 .nil) (hr L st) .nil
  | print hx hvalue ih =>
      rw [kindsOf_value hvalue] at ih
      rw [expr]
      refine (makes_accept _).bind fun _ => (makes_exprs_singleton ih).bind fun code => ?_
      rw [callCode_print, hx.ty_eq]
      refine (makes_printFunction hvalue).bind fun f => .pure ?_
      rintro Γ _ ⟨hf, hparams, hresults⟩ hcode _
      exact hcode.append (takes_call hf hparams hresults)
  | input =>
      rw [expr]
      refine (makes_accept _).bind fun _ => ?_
      rw [exprs, pure_bind]
      exact .pure fun Γ _ _ => takes_call (f := .readInt) (by decide) rfl rfl
  | len _ _ ih =>
      rw [expr]
      refine (makes_accept _).bind fun _ => (makes_exprs_singleton ih).bind fun code => ?_
      rw [callCode_len]
      refine (makes_requireTier _ _).bind fun _ => .pure ?_
      intro Γ _ _ hcode _
      exact takes_lengthOf hcode
  | arrayLit harray helem _ helems _ =>
      rw [expr]
      exact (makes_accept _).bind fun _ =>
        (makes_arrayLit harray helem helems).mono fun _ _ hcode _ => hcode
  | arrayFill harray helem hlength hfill _ _ =>
      rw [expr]
      exact (makes_accept _).bind fun _ =>
        (makes_arrayFill harray helem hlength hfill).mono fun _ _ hcode _ => hcode
  | index _ harray hindex _ _ =>
      rw [expr, kindsOf_value harray.elem_isValue]
      exact (makes_accept _).bind fun _ =>
        (makes_elementRead harray hindex).mono fun _ _ hcode _ => hcode

/-! ## Statements -/

theorem takes_whileLoop {Γ : Signature} {labels : LoopLabels} {cond body : Block}
    (hlabels : labels.exit ≠ labels.start) (hcond : Takes Γ [] cond [.value .i32])
    (hbody : Takes Γ [] body []) : Takes Γ [] [whileLoop labels cond body] [] := by
  apply takes_region hlabels
  intro L st hexit hstart
  have htest : Typed Γ L (.value .i32 :: st)
      [i32Const 0, .compare .i32 .eq, .branchIf labels.exit] st :=
    .step .constI32 (.step (.compare (by decide) (by decide)) (.step (.branchIf hexit) .nil))
  have hagain : Typed Γ L st [.branch labels.start] st := .step (.branch hstart) .nil
  exact (((hcond L st).append htest).append (hbody L st)).append hagain

theorem makes_elementWrite {elem : Ty} {array index value : Expr}
    (harray : HasType t.tier env array (.array elem)) (hindex : HasType t.tier env index .int)
    (hvalue : HasType t.tier env value elem) :
    Makes t env (elementWrite t array index value) fun Γ code => Takes Γ [] code [] := by
  have hexpr := makes_expr hvalue
  rw [kindsOf_value harray.elem_isValue] at hexpr
  rw [elementWrite]
  refine (makes_elementRef harray hindex).bind fun ⟨address, elem'⟩ => hexpr.bind fun code =>
    (makes_representation _ _).bind fun vt => ?_
  dsimp only
  split
  · exact .throw_bind
  · refine .pure ?_
    rintro Γ _ hvt hcode ⟨haddress, -⟩
    rw [hvalue.ty_eq] at hvt
    obtain rfl := eq_cellType hvt
    apply (haddress.append (hcode.above _)).append
    intro L st
    exact .step (.store (cellType_mem harray.elem_isValue)) .nil

theorem makes_stmts {list : List Stmt}
    (h : ∀ s ∈ list, Makes t env (stmt t s) fun Γ code => Takes Γ [] code []) :
    Makes t env (stmts t list) fun Γ code => Takes Γ [] code [] := by
  induction list with
  | nil =>
      rw [stmts]
      exact .pure fun Γ _ => takes_nil
  | cons s rest ih =>
      obtain ⟨hs, hrest⟩ := List.forall_mem_cons.mp h
      rw [stmts]
      refine hs.bind fun first => (ih hrest).bind fun second => .pure ?_
      intro Γ _ hsecond hfirst
      exact hfirst.append hsecond

/-- The code of a well-typed statement leaves the stack as it was. -/
theorem makes_stmt {s : Stmt} (h : StmtTyped t.tier env s) :
    Makes t env (stmt t s) fun Γ code => Takes Γ [] code [] := by
  induction h with
  | @expr x ty hx =>
      rw [stmt]
      refine (makes_requireTier _ _).bind fun _ => (makes_expr hx).bind fun code => .pure ?_
      intro Γ _ hcode _
      rw [hx.ty_eq]
      rw [kindsOf] at hcode
      split
      · next hvoid => rwa [if_pos hvoid] at hcode
      · next hvoid =>
          rw [if_neg hvoid] at hcode
          exact hcode.append fun L st => .step .drop .nil
  | assign hfind hvalue hv =>
      rw [stmt]
      have hexpr := makes_expr hv
      rw [kindsOf_value hvalue] at hexpr
      refine (makes_requireTier _ _).bind fun _ => hexpr.bind fun code => .pure ?_
      intro Γ hΓ hcode _
      exact hcode.append fun L st => .step (.localSet (hΓ.vars _ _ hfind)) .nil
  | indexAssign _ harray hindex hvalue =>
      rw [stmt]
      exact (makes_requireTier _ _).bind fun _ =>
        (makes_elementWrite harray hindex hvalue).mono fun _ _ hcode _ => hcode
  | ifElse hcond _ _ ihthen ihelse =>
      rw [stmt]
      refine (makes_requireTier _ _).bind fun _ => (makes_expr hcond).bind fun cond =>
        (makes_stmts ihthen).bind fun thenCode => (makes_stmts ihelse).bind fun elseCode =>
        .pure ?_
      intro Γ _ helse hthen hcond _
      exact hcond.append fun L st => .ifElse (hthen L st) (helse L st) .nil
  | whileDo hcond _ ih =>
      rw [stmt]
      refine (makes_requireTier _ _).bind fun _ => (makes_freshLabels _).bind fun labels =>
        (makes_expr hcond).bind fun cond => (makes_stmts ih).bind fun body => .pure ?_
      intro Γ _ hbody hcond hlabels _
      exact takes_whileLoop hlabels hcond hbody

end

end ArrayLang.Emit
