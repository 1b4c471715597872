import ArrayLang.Proofs.Heap.Assembled

/-!
# The frontier of the heap

An initialiser that does not halt moves the frontier by the size of the new array, modulo 2 ^ 32.
If the array ends below 2 ^ 32 its header and all its elements are stored, and the frontier is its
end.  So it is whenever memory and the largest array are smaller than 2 ^ 32 together, but not in
larger memories: there the frontier may fall, and the loop that fills the array stop before it
starts.
-/

namespace ArrayLang.Reference

open Source Code Machine Emit Host Typing Assembly

/-! ## Arrays under construction -/

/-- The header of an array and its first elements are in memory. -/
structure Extent.Written (x : Extent) (m : Memory) (values : List UInt64) : Prop where
  header : m.word .i32 x.address.toNat =
    (Layout.encodeHeader x.length (Layout.ElemKind.ofTy x.elem).code).toUInt64
  elems : ∀ i v, values[i]? = some v →
    m.word (cellType x.elem) (x.cell i) = narrow (cellType x.elem) v

/-- The frontier was moved past an array, and unless this went past the last address, the header and
the first elements are in memory. -/
structure Making (x : Extent) (w : World) (values : List UInt64) : Prop where
  frontier : w.frontier = pastArray x.address x.length x.elem
  written : x.stop < UInt32.size → x.Written w.memory values

section

variable {x : Extent} {m : Memory} {w w' : World} {values before rest : List UInt64}
  {value length : UInt64} {elem : Ty} {t : Target}

/-- The next element is written behind the others. -/
theorem Extent.Written.concat (h : x.Written m values) (helem : IsValue x.elem)
    (hsize : x.cell values.length + Layout.width x.elem ≤ m.size) (value : UInt64) :
    x.Written (m.setWord (cellType x.elem) (x.cell values.length) value) (values ++ [value]) := by
  constructor
  · have hdisjoint : x.address.toNat + ValType.i32.size ≤ x.cell values.length :=
      Extent.header_le_cell _
    rw [Memory.word_setWord_of_disjoint m value (Or.inl hdisjoint)]
    exact h.header
  · intro i v hi
    rw [List.getElem?_append] at hi
    split at hi
    · next hlt =>
        have hdisjoint : x.cell i + (cellType x.elem).size ≤ x.cell values.length := by
          rw [size_cellType helem]
          exact Extent.cell_add_le hlt
        rw [Memory.word_setWord_of_disjoint m value (Or.inl hdisjoint)]
        exact h.elems i v hi
    · next hge =>
        obtain ⟨hi, rfl⟩ : i - values.length = 0 ∧ value = v := by
          simpa [List.getElem?_singleton] using hi
        obtain rfl : i = values.length := by omega
        apply Memory.word_setWord_self m value (cellType_eq helem)
        rwa [size_cellType helem]

theorem Making.store {address : UInt32} (h : Making x w values) (helem : IsValue x.elem)
    (haddress : x.stop < UInt32.size → address.toNat = x.cell values.length)
    (hrun : store .make x.address (cellType x.elem) address value w = .ok () w') :
    Making x w' (values ++ [value]) := by
  rw [run_store] at hrun
  split at hrun
  · next hbounds =>
      obtain ⟨-, rfl⟩ := EStateM.Result.ok.inj hrun
      refine ⟨h.frontier, fun hstop => ?_⟩
      have hsize : address.toNat + (cellType x.elem).size ≤ w.memory.size :=
        of_decide_eq_true hbounds
      rw [haddress hstop, size_cellType helem] at hsize
      have hwritten := (h.written hstop).concat helem hsize value
      rwa [← haddress hstop] at hwritten
  · exact nomatch hrun

/-- The elements of a list are stored one behind the other.  The induction is on those that are
still to come. -/
theorem Making.storeElems (h : Making x w before) (helem : IsValue x.elem)
    (hcount : before.length + rest.length = x.count)
    (hrun : storeElems x.address x.elem before.length rest w = .ok () w') :
    Making x w' (before ++ rest) := by
  induction rest generalizing before w with
  | nil =>
      rw [List.append_nil]
      obtain ⟨-, rfl⟩ := EStateM.Result.ok.inj hrun
      exact h
  | cons v rest ih =>
      rw [List.length_cons] at hcount
      rw [Reference.storeElems] at hrun
      obtain ⟨_, w₁, hstore, hrest⟩ := exists_of_run_bind hrun
      have h₁ : Making x w₁ (before ++ [v]) :=
        h.store helem (fun hstop => toNat_newCell (by omega) hstop) hstore
      have hlength : (before ++ [v]).length = before.length + 1 := List.length_append
      rw [← hlength] at hrest
      have h₂ := ih h₁ (by omega) hrest
      rwa [List.append_assoc] at h₂

/-- The cursor of a fill is at the next element, and below the frontier as long as there is one. -/
theorem Making.fillFrom {k bound : Nat} {cursor : UInt32}
    (h : Making x w (List.replicate k value)) (helem : IsValue x.elem)
    (hk : x.stop < UInt32.size → k ≤ x.count ∧ cursor.toNat = x.cell k)
    (hrun : fillFrom x.address x.elem value bound cursor w = .ok () w') :
    Making x w' (List.replicate x.count value) := by
  induction bound generalizing k cursor w with
  | zero => exact nomatch hrun
  | succ bound ih =>
      rw [Reference.fillFrom] at hrun
      obtain ⟨_, w₁, htick, hrun⟩ := exists_of_run_bind hrun
      have h₁ : Making x w₁ (List.replicate k value) := by
        rw [run_tick] at htick
        split at htick
        · exact nomatch htick
        · obtain ⟨-, rfl⟩ := EStateM.Result.ok.inj htick
          exact ⟨h.frontier, h.written⟩
      rw [run_bind_ok w₁ (run_get w₁)] at hrun
      have hfrontier (hstop : x.stop < UInt32.size) : w₁.frontier.toNat = x.stop := by
        rw [h₁.frontier, toNat_pastArray hstop]
      by_cases hlt : cursor < w₁.frontier
      · rw [if_pos hlt] at hrun
        obtain ⟨_, w₂, hstore, hrun⟩ := exists_of_run_bind hrun
        have h₂ := h₁.store helem (fun hstop => by simpa using (hk hstop).2) hstore
        rw [← List.replicate_succ'] at h₂
        refine ih h₂ (fun hstop => ?_) hrun
        obtain ⟨hle, hcursor⟩ := hk hstop
        have hbelow : cursor.toNat < w₁.frontier.toNat := hlt
        rw [hcursor, hfrontier hstop, ← Extent.cell_count] at hbelow
        have hk' : k < x.count := by
          by_contra hge
          exact absurd (x.cell_mono (Nat.le_of_not_lt hge)) (Nat.not_le_of_lt hbelow)
        have hcell := x.cell_lt_stop hk'
        have hwidth := width_le x.elem
        refine ⟨hk', ?_⟩
        simp only [UInt32.size] at hstop
        rw [UInt32.toNat_add, UInt32.toNat_ofNat', hcursor, Extent.cell_succ]
        omega
      · rw [if_neg hlt] at hrun
        obtain ⟨-, rfl⟩ := EStateM.Result.ok.inj hrun
        refine ⟨h₁.frontier, fun hstop => ?_⟩
        obtain ⟨hle, hcursor⟩ := hk hstop
        have hbelow : ¬cursor.toNat < w₁.frontier.toNat := hlt
        rw [hcursor, hfrontier hstop] at hbelow
        have hk' : k = x.count := by
          refine Nat.le_antisymm hle (Nat.le_of_not_lt fun hlt => ?_)
          have hcell := x.cell_lt_stop hlt
          have hwidth := width_pos x.elem
          omega
        exact hk' ▸ h₁.written hstop

/-! ## Initialisers -/

/-- An array was made at the frontier. -/
structure Made (t : Target) (elem : Ty) (values : List UInt64) (x : Extent) (w w' : World) :
    Prop where
  address : x.address = w.frontier
  elem : x.elem = elem
  count : x.count = values.length
  /-- There was room for the header. -/
  room : w.frontier.toNat + Layout.headerSize ≤ w.memory.size
  /-- The array is not larger than allowed. -/
  small : (x.count * Layout.width x.elem : Int) ≤ t.maxArrayBytes.toInt
  making : Making x w' values

theorem making_allocated (hsize : x.address.toNat + Layout.headerSize ≤ w.memory.size) :
    Making x (w.allocated x) [] := by
  refine ⟨rfl, fun _ => ⟨?_, fun i v h => nomatch h⟩⟩
  refine (Memory.word_setWord_self w.memory _ (Or.inl rfl) hsize).trans ?_
  simp [narrow]

/-- What ends well after an allocation, and completes the array, has made it. -/
theorem made_of_allocate {base : UInt32} {w₁ : World}
    (hcount : length.toInt64.toInt = values.length) (hrun : allocate t length elem w = .ok base w₁)
    (hrest : ∀ x : Extent, x.address = base → x.elem = elem → x.count = values.length →
      Making x w₁ [] → Making x w' values) :
    ∃ x, Made t elem values x w w' := by
  obtain ⟨hfits, hbounds, rfl, rfl⟩ := exists_of_allocate hrun
  obtain ⟨hlength, -, hsmall⟩ := toNat_of_fits hfits
  have hroom : w.frontier.toNat + Layout.headerSize ≤ w.memory.size := of_decide_eq_true hbounds
  have hcount' : length.toUInt32.toNat = values.length := Int.ofNat_inj.mp (hlength.trans hcount)
  exact ⟨⟨w.frontier, length.toUInt32, elem⟩, rfl, rfl, hcount', hroom, hsmall,
    hrest _ rfl rfl hcount' (making_allocated hroom)⟩

theorem made_makeList {v : UInt64} (helem : IsValue elem)
    (hlength : (values.length : Int) ≤ Int64.maxValue.toInt)
    (hrun : makeList t elem values w = .ok v w') : ∃ x, Made t elem values x w w' := by
  rw [makeList] at hrun
  obtain ⟨base, w₁, hallocate, hrun⟩ := exists_of_run_bind hrun
  obtain ⟨_, w₂, hstore, hrun⟩ := exists_of_run_bind hrun
  obtain ⟨-, rfl⟩ := EStateM.Result.ok.inj hrun
  refine made_of_allocate (toInt_ofNat hlength) hallocate ?_
  rintro x rfl rfl hcount h
  exact h.storeElems helem (by simpa using hcount.symm) hstore

theorem made_makeFill {v : UInt64} (helem : IsValue elem)
    (hrun : makeFill t elem length value w = .ok v w') :
    ∃ x, Made t elem (List.replicate length.toInt64.toInt.toNat value) x w w' := by
  rw [makeFill] at hrun
  obtain ⟨base, w₁, hallocate, hrun⟩ := exists_of_run_bind hrun
  obtain ⟨_, w₂, hfill, hrun⟩ := exists_of_run_bind hrun
  obtain ⟨-, rfl⟩ := EStateM.Result.ok.inj hrun
  rw [fillArray, run_bind_ok w₁ (run_get w₁)] at hfill
  have hnonneg : 0 ≤ length.toInt64.toInt := by
    obtain ⟨hfits, -⟩ := exists_of_allocate hallocate
    obtain ⟨hlength, -, -⟩ := toNat_of_fits hfits
    omega
  have hlength : length.toInt64.toInt =
      (List.replicate length.toInt64.toInt.toNat value).length := by
    rw [List.length_replicate, Int.toNat_of_nonneg hnonneg]
  refine made_of_allocate hlength hallocate ?_
  rintro x rfl rfl hcount h
  rw [List.length_replicate] at hcount
  rw [← hcount]
  exact h.fillFrom (k := 0) helem (fun hstop => ⟨Nat.zero_le _, toNat_firstCell hstop⟩) hfill

end

/-! ## Code -/

/-- The elements that an initialiser gives to the new array, if the expression is one. -/
def initialValues? (vars : String → UInt64) : Expr → Option (List UInt64)
  | .arrayLit _ _ elems => some (elems.map (atomValue vars))
  | .arrayFill _ length fill =>
    some (List.replicate (atomValue vars length).toInt64.toInt.toNat (atomValue vars fill))
  | _ => none

/-- An initialiser in normal form that ends well makes an array of its elements. -/
theorem made_evalExpr {t : Target} {tier : Tier} {env : Env} {e : Expr} {elem : Ty} {v : UInt64}
    {w w' : World} {values : List UInt64} (htyped : HasType tier env e (.array elem))
    (hnormal : e.isNormal = true) (hcount : Countable e.lengths)
    (hvalues : initialValues? w.vars e = some values) (hrun : evalExpr t e w = .ok v w') :
    ∃ x, Made t elem values x w w' := by
  cases htyped with
  | arrayLit _ helem _ _ =>
      obtain rfl := Option.some.inj hvalues
      rw [evalExpr, run_bind_ok w (evalExprs_atoms t w hnormal)] at hrun
      obtain ⟨hlength, -⟩ := List.forall_mem_cons.mp hcount
      obtain ⟨x, h⟩ := made_makeList helem (by rwa [List.length_map]) hrun
      exact ⟨x, h.address, h.elem, h.count, h.room, h.small, h.making⟩
  | arrayFill _ helem _ _ =>
      obtain rfl := Option.some.inj hvalues
      obtain ⟨hlength, hfill⟩ := Bool.and_eq_true_iff.mp hnormal
      rw [evalExpr, run_bind_ok w (evalExpr_atom t w hlength),
        run_bind_ok _ (evalExpr_atom t _ hfill)] at hrun
      obtain ⟨x, h⟩ := made_makeFill helem hrun
      exact ⟨x, h.address, h.elem, h.count, h.room, h.small, h.making⟩
  | _ => exact nomatch hvalues

/-- Where an array ends that is made in a state of the machine. -/
def stopAt (state : State Console) (elem : Ty) (values : List UInt64) : Nat :=
  frontierOf state + Layout.headerSize + values.length * Layout.width elem

/-- The header and all elements of an array are in memory. -/
def Stored (m : Memory) (base : Nat) (elem : Ty) (values : List UInt64) : Prop :=
  ∃ x : Extent, x.address.toNat = base ∧ x.elem = elem ∧ x.count = values.length ∧
    x.Written m values

section

variable {s : Settings} {major? : String → Option String} {elem : Ty} {values : List UInt64}
  {x : Extent} {w w' : World}
  {state final : State Console}

theorem Made.stop_eq (h : Made (targetOf s) elem values x w w')
    (hfrontier : frontierOf state = w.frontier.toNat) : x.stop = stopAt state elem values := by
  rw [stopAt, hfrontier, ← h.address, ← h.count, ← h.elem, Extent.stop, Extent.bytes,
    Nat.add_assoc]

/-- An initialiser is compiled, and if its code does not halt, the frontier is the end of the new
array modulo 2 ^ 32.  It is the end itself, and all elements are stored, exactly if the end is less
than 2 ^ 32.  That is so if memory and the largest array are smaller than this together. -/
theorem frontier_after_initialiser {env : Env} {e : Expr} (hvalid : s.validate major? = .ok ())
    (htier : s.tier = .array) (htyped : HasType s.tier env e (.array elem))
    (hnormal : e.isNormal = true) (harray : arraySlot ∉ e.names) (hcursor : cursorSlot ∉ e.names)
    (hcount : Countable e.lengths) (p : Progress) :
    ∃ code p', (Emit.expr (targetOf s) e).run p = (.ok code, p') ∧
      ∀ state final values, frontierOf state < UInt32.size →
        initialValues? state.locals.get e = some values →
        execBlock linked code state = .next final →
        frontierOf final = stopAt state elem values % UInt32.size ∧
        (frontierOf final = stopAt state elem values ∧
            Stored final.memory (frontierOf state) elem values ↔
          stopAt state elem values < UInt32.size) ∧
        ((state.memory.size : Int) + s.maxArrayBytes.toInt < UInt32.size →
          stopAt state elem values < UInt32.size) := by
  obtain ⟨code, p', hemit, hcomputes⟩ := emitted_expr (t := targetOf s)
    (fun _ => maxArrayBytes_pos hvalid) htyped hnormal ⟨harray, hcursor⟩ p
  refine ⟨code, p', hemit, ?_⟩
  intro state final values hfrontier hvalues hexec
  have hagree : Agree (targetOf s) (worldOf (targetOf s) state) state := agree_worldOf hfrontier
  have hfollows := hcomputes state.stack state _ hagree ⟨rfl, trivial⟩
  rw [observe, hexec] at hfollows
  generalize hrun : evalExpr (targetOf s) e (worldOf (targetOf s) state) = r at hfollows
  cases hfollows with
  | ok hagree' =>
      next w' =>
      obtain ⟨x, hmade⟩ := made_evalExpr htyped hnormal hcount hvalues hrun
      have hstop := hmade.stop_eq (frontierOf_eq htier hagree)
      have hend : frontierOf final = x.stop % UInt32.size := by
        rw [frontierOf_eq htier hagree', hmade.making.frontier, toNat_pastArray_eq_mod]
      rw [← hstop]
      refine ⟨hend, ⟨fun hexact => ?_, fun hlt => ⟨?_, x, ?_, hmade.elem, hmade.count, ?_⟩⟩,
        fun hroomy => ?_⟩
      · rw [← hexact.1, hend]
        exact Nat.mod_lt _ (by decide)
      · rw [hend, Nat.mod_eq_of_lt hlt]
      · rw [hmade.address, frontierOf_eq htier hagree]
      · rw [hagree'.memory]
        exact hmade.making.written hlt
      · have hroom := hmade.room
        have hsmall := hmade.small
        rw [← hmade.address] at hroom
        rw [Extent.stop, Extent.bytes]
        change (_ : Int) ≤ s.maxArrayBytes.toInt at hsmall
        change _ ≤ state.memory.size at hroom
        omega

end

/-- Code did not halt, and the state after it passes a test. -/
def endsIn (test : State Console → Bool) : Outcome Console → Bool
  | .next final => test final
  | .branch .. | .halt .. => false

theorem exists_next_of_endsIn {test : State Console → Bool} {outcome : Outcome Console}
    (h : endsIn test outcome = true) : ∃ final, outcome = .next final ∧ test final = true := by
  cases outcome with
  | next final => exact ⟨final, rfl, h⟩
  | branch | halt => exact nomatch h

/-- Three sevens, made at the start of the heap. -/
theorem sevens_frontier_after_initialiser :
    let e : Expr := .arrayFill (.array .int) (.var .int "n") (.int .int 7)
    let state : State Console := ⟨.zeros 65536, [(frontierName, 24)], [("n", 3)], [], {}, 10⟩
    ∃ code p' final, (Emit.expr (targetOf .standard) e).run {} = (.ok code, p') ∧
      execBlock linked code state = .next final ∧ frontierOf final = 24 + 4 + 3 * 8 ∧
      Stored final.memory 24 .int [7, 7, 7] := by
  intro e state
  have htyped : HasType Settings.standard.tier [⟨"n", .int⟩] e (.array .int) :=
    .arrayFill rfl .int (.var rfl rfl .int) (.int rfl)
  have hvalid : Settings.standard.validate = .ok () := by decide
  obtain ⟨code, p', hemit, h⟩ := frontier_after_initialiser hvalid rfl htyped rfl (by decide)
    (by decide) countable_nil {}
  have hends : endsIn (fun _ => true) (execBlock linked code state) = true := by
    cases hemit
    decide +kernel
  obtain ⟨final, hexec, -⟩ := exists_next_of_endsIn hends
  obtain ⟨-, hexact, hroomy⟩ := h state final [7, 7, 7] (by decide) rfl hexec
  obtain ⟨hfrontier, hstored⟩ := hexact.mpr (hroomy (by decide))
  exact ⟨code, p', final, hemit, hexec, hfrontier, hstored⟩

/-- Settings with more than half of the addresses in memory. -/
def vast : Settings := { Settings.standard with maxArrayBytes := 2147483640, memoryPages := 32769 }

/-- The settings are valid, and the frontier is in memory, but an array of sevens would end behind
the last address.  The frontier falls, and no seven is stored. -/
theorem vast_frontier_falls :
    let e : Expr := .arrayFill (.array .int) (.int .int 268435455) (.int .int 7)
    let state : State Console :=
      ⟨.zeros (memorySize vast), [(frontierName, 2147549180)], [], [], {}, 10⟩
    vast.validate = .ok () ∧ memoryTooSmall vast = false ∧
      heapStart ≤ frontierOf state ∧ frontierOf state ≤ memorySize vast ∧
      ∃ code p' final, (Emit.expr (targetOf vast) e).run {} = (.ok code, p') ∧
        execBlock linked code state = .next final ∧ frontierOf final < frontierOf state ∧
        final.memory.word .i64 (frontierOf state + Layout.headerSize) = 0 := by
  intro e state
  refine ⟨by decide, by decide, by decide, by decide, ?_⟩
  let test (final : State Console) : Bool := frontierOf final < frontierOf state &&
    final.memory.word .i64 (frontierOf state + Layout.headerSize) == 0
  generalize hemit : (Emit.expr (targetOf vast) e).run {} = answer
  rcases answer with ⟨code | code, p'⟩
  · exact nomatch hemit
  have hends : endsIn test (execBlock linked code state) = true := by
    cases hemit
    decide +kernel
  obtain ⟨final, hexec, htest⟩ := exists_next_of_endsIn hends
  obtain ⟨hfrontier, hword⟩ := Bool.and_eq_true_iff.mp htest
  exact ⟨code, p', final, rfl, hexec, of_decide_eq_true hfrontier, eq_of_beq hword⟩

end ArrayLang.Reference
