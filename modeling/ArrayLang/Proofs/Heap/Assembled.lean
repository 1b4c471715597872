import ArrayLang.Proofs.Assembly.Success
import ArrayLang.Proofs.Heap.Programs
import ArrayLang.Proofs.NormalForm.Covered

/-!
# The heap of assembled programs

A run of an assembled program accesses arrays as it should exactly if no access goes through the
reference 0.  Such a reference is the value of a variable that is read before it is assigned.  At
every boundary of statements that is reached without such a read, the heap is typed.
-/

namespace ArrayLang.Reference

open Source Code Machine Emit Host Typing NormalForm Assembly

variable {s : Settings} {source : List Stmt} {a : Assembled} {major? : String → Option String}
  {history : List Event}

/-- Every access but those that make arrays goes to the header or an element of the array at its
reference, which was made before, and leaves the messages and all headers as they are. -/
def InOrder (history : List Event) : Prop :=
  ∀ before purpose array a, before ++ [.access purpose array a] <+: history → purpose ≠ .make →
    Allowed (madeIn before) array a ∧ Harmless (madeIn before) a

/-- The reference of an access is not 0, unless the access makes an array. -/
def NonNull : Event → Prop
  | .access purpose array _ => purpose ≠ .make → array ≠ 0
  | _ => True

instance : DecidablePred NonNull
  | .access purpose array _ => inferInstanceAs (Decidable (purpose ≠ .make → array ≠ 0))
  | .read _ | .assign _ | .made _ | .choice _ _ _ => .isTrue trivial

/-- No array variable is read before it is assigned. -/
def AssignedFirst (env : Env) (history : List Event) : Prop :=
  ∀ before name elem, before ++ [.read name] <+: history →
    env.find? name = some (.array elem) → .assign name ∈ before

/-- Every array variable that is read has been assigned, some of them before. -/
def readsAssigned (env : Env) (assigned : List String) : List Event → Bool
  | [] => true
  | .read name :: rest =>
    (match env.find? name with
      | some (.array _) => name ∈ assigned
      | _ => true) && readsAssigned env assigned rest
  | .assign name :: rest => readsAssigned env (name :: assigned) rest
  | .choice .. :: rest | .made _ :: rest | .access .. :: rest => readsAssigned env assigned rest

/-- No array can reach the last address, or none does. -/
def Fits (s : Settings) (history : List Event) : Prop :=
  (memorySize s : Int) + s.maxArrayBytes.toInt < UInt32.size ∨
    ∀ x, .made x ∈ history → x.stop < UInt32.size

theorem of_readsAssigned {env : Env} {assigned : List String} {before : List Event} {name : String}
    {elem : Ty} (h : readsAssigned env assigned history = true)
    (hbefore : before ++ [.read name] <+: history) (hfind : env.find? name = some (.array elem)) :
    name ∈ assigned ∨ .assign name ∈ before := by
  induction history generalizing assigned before with
  | nil => exact absurd hbefore (by simp)
  | cons e rest ih =>
      cases before with
      | nil =>
          obtain ⟨rfl, -⟩ := List.cons_prefix_cons.mp hbefore
          rw [readsAssigned, hfind, Bool.and_eq_true] at h
          exact Or.inl (of_decide_eq_true h.1)
      | cons e' before =>
          obtain ⟨rfl, hrest⟩ := List.cons_prefix_cons.mp hbefore
          cases e' with
          | read other =>
              rw [readsAssigned, Bool.and_eq_true] at h
              exact (ih h.2 hrest).imp_right (List.mem_cons_of_mem _)
          | assign other =>
              rcases ih h hrest with hmem | hmem
              · rcases List.mem_cons.mp hmem with rfl | hmem
                · exact Or.inr List.mem_cons_self
                · exact Or.inl hmem
              · exact Or.inr (List.mem_cons_of_mem _ hmem)
          | choice | made | access => exact (ih h hrest).imp_right (List.mem_cons_of_mem _)

theorem assignedFirst_of_readsAssigned {env : Env} (h : readsAssigned env [] history = true) :
    AssignedFirst env history :=
  fun _ _ _ hbefore hfind => (of_readsAssigned h hbefore hfind).resolve_left List.not_mem_nil

/-! ## Runs from the start -/

/-- What statements about the heap of a program depend on. -/
def regimeOf (s : Settings) (source : List Stmt) (nulls : Prop) : Regime :=
  ⟨nulls, (formOf s.tier source).types, targetOf s, memorySize s⟩

theorem messages_startWorld (st : Stages s source a major?) (console : Console) (fuel : Nat) :
    (startWorld s console fuel).memory.read 0 heapStart = messageBytes := by
  have hsize : 0 + messageBytes.length ≤ (Memory.zeros (memorySize s)).size := by
    rw [Nat.zero_add, length_messageBytes]
    exact st.heapStart_le
  rw [memory_startWorld, ← length_messageBytes, Memory.read_write_self _ hsize]

theorem typedHeap_start (st : Stages s source a major?) (nulls : Prop) (console : Console)
    (fuel : Nat) :
    TypedHeap (regimeOf s source nulls) Extent.count (startWorld s console fuel) := by
  refine ⟨size_startWorld s console fuel, st.heapStart_le, messages_startWorld st console fuel, ?_,
    ?_, ?_, ?_, logged_nil⟩
  · change heapStart = (UInt32.ofNat heapStart).toNat
    decide
  · intro x hx
    exact absurd hx (by simp [World.arrays, startWorld])
  · intro name ty _ hassign
    exact absurd hassign (by simp [startWorld])
  · exact fun _ _ => rfl

/-- Temporaries are assigned before they are read. -/
theorem covered_runOf (st : Stages s source a major?) (console : Console) (fuel : Nat) :
    Covered (endWorld (runOf s source console fuel)).history := by
  obtain ⟨T, hnorm, -⟩ := st.normalizes
  have hcovers : Covers (fun _ => False) (runStmts (targetOf s) (formOf s.tier source).stmts)
      fun _ => False := hnorm.covers st.envOk (check_sound st.check_ok).2
  refine (hcovers (startWorld s console fuel) ?_ fun _ _ h => h.elim).1
  intro before name hbefore
  exact absurd (List.prefix_nil.mp hbefore) (by simp)

/-- If the variables of the source are assigned first, so are the temporaries. -/
theorem careful_of_assignedFirst (st : Stages s source a major?) (hfits : Fits s history)
    (hcovered : Covered history) (hassigned : AssignedFirst (formOf s.tier source).env history) :
    Careful (regimeOf s source False) history where
  made hroomy := hfits.resolve_left hroomy
  reads _ before name elem hbefore hfind := by
    cases hsource : (formOf s.tier source).env.find? name with
    | some ty =>
        have hty := extends_append _ (formOf s.tier source).temporaries name ty hsource
        obtain rfl := Option.some.inj (hty.symm.trans hfind)
        exact hassigned before name elem hbefore hsource
    | none => exact hcovered before name hbefore (isTemp_of_find? st.tempsOk hfind hsource)
  refs hnulls := hnulls.elim

/-- If accesses are in order, or do not go through the reference 0, they do not lead astray. -/
theorem careful_of_inOrder (hfits : Fits s history)
    (h : InOrder history ∨ ∀ e ∈ history, NonNull e) :
    Careful (regimeOf s source True) history where
  made hroomy := hfits.resolve_left hroomy
  reads hnulls := absurd trivial hnulls
  refs _ before purpose array access hbefore hpurpose := by
    rcases h with horder | hnonNull
    · obtain ⟨⟨x, hx, haddress, -⟩, -⟩ := horder before purpose array access hbefore hpurpose
      exact Or.inr ⟨x, hx, haddress⟩
    · have hmem : .access purpose array access ∈ history := hbefore.subset (by simp)
      exact Or.inl (hnonNull _ hmem hpurpose)

/-- How a run ends if nothing leads it astray. -/
theorem lands_runOf (st : Stages s source a major?) {nulls : Prop} {console : Console} {fuel : Nat}
    (hcount : Countable (Stmt.listLengths source))
    (hcareful : Careful (regimeOf s source nulls)
      (endWorld (runOf s source console fuel)).history) :
    Lands (regimeOf s source nulls) (startWorld s console fuel)
      (fun _ w' => TypedHeap (regimeOf s source nulls) Extent.count w')
      (runOf s source console fuel) :=
  soundStmts_of_typed (R := regimeOf s source nulls) st.typed (st.countable hcount)
    (startWorld s console fuel) (typedHeap_start st nulls console fuel) hcareful

/-- What is known of the accesses of a run if nothing leads it astray. -/
theorem logged_runOf (st : Stages s source a major?) {nulls : Prop} {console : Console} {fuel : Nat}
    (hcount : Countable (Stmt.listLengths source))
    (hcareful : Careful (regimeOf s source nulls)
      (endWorld (runOf s source console fuel)).history) :
    Logged (endWorld (runOf s source console fuel)).history := by
  have hlands := lands_runOf st hcount hcareful
  generalize runOf s source console fuel = r at hlands
  cases hlands with
  | ok h => exact h.logged
  | error hhalts => exact hhalts.logged

theorem Logged.inOrder (h : Logged history) : InOrder history :=
  fun before purpose array a hbefore hpurpose => (h before purpose array a hbefore hpurpose).2

theorem Logged.nonNull (h : Logged history) : ∀ e ∈ history, NonNull e := by
  intro e he
  cases e with
  | access purpose array a =>
      intro hpurpose
      obtain ⟨before, rest, rfl⟩ := List.append_of_mem he
      exact (h before purpose array a ⟨rest, by simp⟩ hpurpose).1
  | _ => trivial

/-! ## Accesses -/

theorem inOrder_iff_nonNull (st : Stages s source a major?)
    (hcount : Countable (Stmt.listLengths source)) {console : Console} {fuel : Nat}
    (hfits : Fits s (endWorld (runOf s source console fuel)).history) :
    InOrder (endWorld (runOf s source console fuel)).history ↔
      Throughout NonNull (runOf s source console fuel) := by
  constructor
  · intro horder
    exact (logged_runOf st hcount (careful_of_inOrder hfits (Or.inl horder))).nonNull
  · intro hnonNull
    exact (logged_runOf st hcount (careful_of_inOrder hfits (Or.inr hnonNull))).inOrder

/-- The accesses of an assembled program are those of its run in the reference semantics.  Unless
arrays reach the last address, they are in order exactly if none goes through the reference 0, which
is so if no array variable is read before it is assigned. -/
theorem accesses_inOrder_iff (hassemble : assemble s (some source) major? = .ok a)
    (hcount : Countable (Stmt.listLengths source)) (console : Console) (fuel : Nat) :
    ∃ m, Machine.load (some a.module) functions console = .ok m ∧
      m.runAccesses fuel = (endWorld (runOf s source console fuel)).accesses ∧
      (Fits s (endWorld (runOf s source console fuel)).history →
        (InOrder (endWorld (runOf s source console fuel)).history ↔
          Throughout NonNull (runOf s source console fuel)) ∧
        (AssignedFirst (formOf s.tier source).env (endWorld (runOf s source console fuel)).history →
          InOrder (endWorld (runOf s source console fuel)).history)) := by
  obtain ⟨st⟩ := exists_stages hassemble
  refine ⟨st.machine console, st.load_ok console, st.runAccesses_eq console fuel, ?_⟩
  intro hfits
  constructor
  · exact inOrder_iff_nonNull st hcount hfits
  · intro hassigned
    have hcareful := careful_of_assignedFirst st hfits (covered_runOf st console fuel) hassigned
    exact (logged_runOf st hcount hcareful).inOrder

/-- The squares are read and written in order. -/
theorem squares_accesses_inOrder :
    ∃ a m, assemble .standard (some squares) = .ok a ∧
      Machine.load (some a.module) functions {} = .ok m ∧
      m.runAccesses 10 = (endWorld (runOf .standard squares {} 10)).accesses ∧
      InOrder (endWorld (runOf .standard squares {} 10)).history := by
  obtain ⟨a, ⟨st⟩⟩ := exists_stages_squares
  have hcount : Countable (Stmt.listLengths squares) := by decide
  obtain ⟨m, hload, haccesses, horder⟩ := accesses_inOrder_iff st.assemble_eq hcount {} 10
  have hfits : Fits .standard (endWorld (runOf .standard squares {} 10)).history :=
    Or.inl (by decide)
  have hnonNull : Throughout NonNull (runOf .standard squares {} 10) := by
    rw [Throughout]
    decide +kernel
  exact ⟨a, m, st.assemble_eq, hload, haccesses, (horder hfits).1.mpr hnonNull⟩

/-- A program that writes to an array that it does not make, since the condition does not hold. -/
def staleWrite : List Stmt :=
  [.ifElse (.bool .bool false) [.assign "a" (.arrayLit (.array .int) .int [.int .int 1])] [],
    .indexAssign (.var (.array .int) "a") (.int .int 1) (.int .int 0)]

/-- The program is assembled, and its run succeeds although it accesses what is no array and
overwrites the messages. -/
theorem staleWrite_accesses_not_inOrder :
    ∃ a m, assemble .standard (some staleWrite) = .ok a ∧
      Machine.load (some a.module) functions {} = .ok m ∧
      (m.run 0).1 = .ok () ∧
      m.runAccesses 0 = (endWorld (runOf .standard staleWrite {} 0)).accesses ∧
      ¬InOrder (endWorld (runOf .standard staleWrite {} 0)).history ∧
      (m.run 0).2.memory.read 0 heapStart ≠ messageBytes := by
  obtain ⟨a, ⟨st⟩⟩ : ∃ a, Nonempty (Stages .standard staleWrite a) :=
    exists_stages_of_check (by decide) (by decide) (by decide) rfl
  obtain ⟨state, hagree, hrun⟩ := st.run_eq {} 0
  have hcount : Countable (Stmt.listLengths staleWrite) := by decide
  have hnull : ¬Throughout NonNull (runOf .standard staleWrite {} 0) := by
    rw [Throughout]
    decide +kernel
  have hend : ending (runOf .standard staleWrite {} 0) = .ok () := by decide +kernel
  have hmessages : (endWorld (runOf .standard staleWrite {} 0)).memory.read 0 heapStart ≠
      messageBytes := by
    decide +kernel
  refine ⟨a, st.machine {}, st.assemble_eq, st.load_ok {}, ?_, st.runAccesses_eq {} 0, ?_, ?_⟩
  · rw [hrun]
    exact hend
  · rwa [inOrder_iff_nonNull st hcount (Or.inl (by decide))]
  · rw [hrun, Machine.stopped, hagree.memory]
    exact hmessages

/-! ## Boundaries -/

/-- A word is the address of an array of elements of a type. -/
def IsRef (arrays : List Extent) (elem : Ty) (value : UInt64) : Prop :=
  ∃ x ∈ arrays, x.elem = elem ∧ value = x.address.toUInt64

/-- The first free address in a state of the machine. -/
def frontierOf (m : State Console) : Nat := (m.globals.get frontierName).toNat

theorem frontierOf_eq (htier : s.tier = .array) {w : World} {m : State Console}
    (h : Agree (targetOf s) w m) : frontierOf m = w.frontier.toNat := by
  have hadmits : s.tier.admits .array = true := by
    rw [htier]
    decide
  exact (congrArg UInt64.toNat (h.frontier hadmits)).trans (UInt32.toNat_toUInt64 _)

/-- A state of the machine is as the arrays made so far, the types of the variables and the
assignments made so far say. -/
structure HeapOk (types : Env) (arrays : List Extent) (assigned : String → Prop)
    (m : State Console) : Prop where
  tiled : Tiled heapStart arrays (frontierOf m)
  headers : ∀ x ∈ arrays, m.memory.word .i32 x.address.toNat =
    (Layout.encodeHeader x.length (Layout.ElemKind.ofTy x.elem).code).toUInt64
  frontier_eq : frontierOf m = heapStart +
    (arrays.map fun x => Layout.headerSize + x.length.toNat * Layout.width x.elem).sum
  frontier_le : frontierOf m ≤ m.memory.size
  refs : ∀ name elem, types.find? name = some (.array elem) → assigned name →
    IsRef arrays elem (m.locals.get name)
  elemRefs : ∀ x ∈ arrays, ∀ elem, x.elem = .array elem → ∀ i < x.length.toNat,
    IsRef arrays elem (m.memory.word .i32 (x.cell i))
  bools : ∀ name, types.find? name = some .bool → m.locals.get name = 0 ∨ m.locals.get name = 1
  elemBools : ∀ x ∈ arrays, x.elem = .bool → ∀ i < x.length.toNat,
    m.memory.word .i32 (x.cell i) = 0 ∨ m.memory.word .i32 (x.cell i) = 1
  messages : m.memory.read 0 heapStart = messageBytes

theorem Proper.isRef {arrays : List Extent} {elem : Ty} {value : UInt64}
    (h : Proper False arrays (.array elem) value) : IsRef arrays elem value := by
  rcases h with ⟨hfalse, -⟩ | href
  · exact hfalse.elim
  · exact href

theorem TypedHeap.frontier_le {R : Regime} {w : World} (h : TypedHeap R Extent.count w) :
    w.frontier.toNat ≤ w.memory.size := by
  refine h.tiled.le_of_forall (h.size ▸ h.base) fun x hx => ?_
  rw [← Extent.cell_count]
  exact (h.kept x hx).room

/-- A typed heap is seen in every state that agrees with the world. -/
theorem TypedHeap.heapOk (st : Stages s source a major?) (htier : s.tier = .array) {w : World}
    {m : State Console} (h : TypedHeap (regimeOf s source False) Extent.count w)
    (hagree : Agree (targetOf s) w m) :
    HeapOk (formOf s.tier source).types w.arrays (fun name => .assign name ∈ w.history) m := by
  have hfrontier := frontierOf_eq htier hagree
  have hlocal {name : String} {ty : Ty}
      (hfind : (formOf s.tier source).types.find? name = some ty) :
      m.locals.get name = w.vars name := by
    obtain ⟨harray, hcursor⟩ := ne_scratch st.envOk st.tempsOk hfind
    exact hagree.vars name harray hcursor
  constructor
  · rw [hfrontier]
    exact h.tiled
  · intro x hx
    rw [hagree.memory]
    exact (h.kept x hx).header
  · rw [hfrontier]
    exact h.tiled.stop_eq
  · rw [hfrontier, hagree.memory]
    exact h.frontier_le
  · intro name elem hfind hassigned
    rw [hlocal hfind]
    exact (h.vars name _ hfind hassigned).isRef
  · intro x hx elem helem i hi
    have hvalue := (h.kept x hx).elems i hi
    rw [helem] at hvalue
    rw [hagree.memory]
    exact hvalue.isRef
  · intro name hfind
    rw [hlocal hfind]
    by_cases hassigned : .assign name ∈ w.history
    · exact h.vars name _ hfind hassigned
    · exact Or.inl (h.unset name hassigned)
  · intro x hx helem i hi
    have hvalue := (h.kept x hx).elems i hi
    rw [helem] at hvalue
    rw [hagree.memory]
    exact hvalue
  · rw [hagree.memory]
    exact h.messages

/-- At every boundary of statements that is reached without an array variable having been read
before it was assigned, the machine is in a state in which the heap is typed. -/
theorem heapOk_at_boundaries (hassemble : assemble s (some source) major? = .ok a)
    (htier : s.tier = .array)
    (hroom : (memorySize s : Int) + s.maxArrayBytes.toInt < UInt32.size)
    (hcount : Countable (Stmt.listLengths source)) (console : Console) (fuel : Nat) :
    ∃ m, Machine.load (some a.module) functions console = .ok m ∧
      ∀ left w,
        Passes (targetOf s) (formOf s.tier source).stmts (startWorld s console fuel) left w →
        AssignedFirst (formOf s.tier source).env w.history →
        ∃ state, m.RunReaches fuel state ∧ Agree (targetOf s) w state ∧
          HeapOk (formOf s.tier source).types w.arrays (fun name => .assign name ∈ w.history)
            state := by
  obtain ⟨st⟩ := exists_stages hassemble
  refine ⟨st.machine console, st.load_ok console, fun left w hpasses hassigned => ?_⟩
  have hcovered : Covered w.history := fun before name hbefore =>
    covered_runOf st console fuel before name (hbefore.trans hpasses.history_le_end)
  have hcareful := careful_of_assignedFirst st (Or.inl hroom) hcovered hassigned
  have hheap := Passes.typedHeap (R := regimeOf s source False) hpasses st.typed
    (st.countable hcount) (typedHeap_start st False console fuel) hcareful
  obtain ⟨state, hreaches, hagree⟩ := st.runReaches hpasses
  exact ⟨state, hreaches, hagree, hheap.heapOk st htier hagree⟩

/-- When the squares are computed, the heap holds one array and is typed. -/
theorem squares_heapOk :
    ∃ a m w state, assemble .standard (some squares) = .ok a ∧
      Machine.load (some a.module) functions {} = .ok m ∧
      runOf .standard squares {} 10 = .ok () w ∧ w.arrays = [⟨24, 3, .int⟩] ∧
      m.RunReaches 10 state ∧ Agree (targetOf .standard) w state ∧
      HeapOk (formOf .array squares).types w.arrays (fun name => .assign name ∈ w.history)
        state := by
  obtain ⟨a, ⟨st⟩⟩ := exists_stages_squares
  have hcount : Countable (Stmt.listLengths squares) := by decide
  have hend : ending (runOf .standard squares {} 10) = .ok () := by decide +kernel
  have harrays : (endWorld (runOf .standard squares {} 10)).arrays = [⟨24, 3, .int⟩] := by
    decide +kernel
  have hassigned : readsAssigned (formOf .array squares).env []
      (endWorld (runOf .standard squares {} 10)).history = true := by
    decide +kernel
  obtain ⟨m, hload, hheap⟩ := heapOk_at_boundaries st.assemble_eq rfl (by decide) hcount {} 10
  have hrun := eq_ok_of_ending hend
  obtain ⟨state, hreaches, hagree, hok⟩ :=
    hheap [] _ (passes_end hrun) (assignedFirst_of_readsAssigned hassigned)
  exact ⟨a, m, _, state, st.assemble_eq, hload, hrun, harrays, hreaches, hagree, hok⟩

end ArrayLang.Reference
