import ArrayLang.Proofs.Emit.Initialisers

/-!
# Room for new arrays

An array for which memory has room is made, whether its elements are listed or equal.  Otherwise the
run halts at the first element that does not lie in memory.
-/

namespace ArrayLang.Reference

open Source Code Machine Emit Typing

/-- An array at the frontier lies in memory, and below 2 ^ 32. -/
structure Room (w : World) (x : Extent) : Prop where
  elem : IsValue x.elem
  address : x.address = w.frontier
  stop_le : x.stop ≤ w.memory.size
  stop_lt : x.stop < UInt32.size

/-- One array was made, and the frontier is behind it. -/
structure Adds (x : Extent) (w w' : World) : Prop where
  arrays : w'.arrays = w.arrays ++ [x]
  frontier : w'.frontier.toNat = x.stop

section

variable {t : Target} {w : World} {x : Extent} {length : UInt64}

@[simp] theorem World.arrays_reads (w : World) (names : List String) :
    (w.reads names).arrays = w.arrays := by
  have hread : (names.map Event.read).filterMap Event.made? = [] := by
    rw [List.filterMap_eq_nil_iff]
    intro e he
    obtain ⟨name, -, rfl⟩ := List.mem_map.mp he
    rfl
  rw [World.arrays, World.reads, List.filterMap_append, hread, List.append_nil, World.arrays]

theorem World.arrays_allocated (w : World) (x : Extent) :
    (w.allocated x).arrays = w.arrays ++ [x] := by
  rw [World.arrays, World.history_allocated, List.filterMap_append]
  rfl

theorem Room.reads (h : Room w x) (names : List String) : Room (w.reads names) x :=
  ⟨h.elem, h.address, h.stop_le, h.stop_lt⟩

theorem Adds.of_reads {names : List String} {w' : World} (h : Adds x (w.reads names) w') :
    Adds x w w' :=
  ⟨h.arrays.trans (by rw [World.arrays_reads]), h.frontier⟩

/-- A header is written if it lies in memory. -/
theorem run_allocate_at (hfits : fits t length x.elem = true) (haddress : x.address = w.frontier)
    (hlength : x.length = length.toUInt32)
    (hheader : x.address.toNat + Layout.headerSize ≤ w.memory.size) :
    allocate t length x.elem w = .ok x.address (w.allocated x) := by
  have hbounds : inBounds w.memory .i32 x.address = true := decide_eq_true hheader
  rw [run_allocate hfits, ← haddress, if_pos hbounds, ← hlength]

theorem inBounds_newCell {m : Memory} {k : Nat} (helem : IsValue x.elem) (hk : k < x.count)
    (hstop : x.stop < UInt32.size) :
    inBounds m (cellType x.elem)
        (x.address + UInt32.ofNat (Layout.headerSize + k * Layout.width x.elem)) = true ↔
      x.cell k + Layout.width x.elem ≤ m.size := by
  rw [inBounds, decide_eq_true_iff, toNat_newCell hk hstop, size_cellType helem]

theorem exists_store {ty : ValType} {address : UInt32} (purpose : Purpose) (array : UInt32)
    (value : UInt64) (hbounds : inBounds w.memory ty address = true) :
    ∃ w', store purpose array ty address value w = .ok () w' ∧ w'.memory.size = w.memory.size ∧
      w'.arrays = w.arrays ∧ w'.frontier = w.frontier := by
  have hstore := run_store w purpose array ty address value
  rw [if_pos hbounds] at hstore
  refine ⟨_, hstore, Memory.size_write _ _ _, ?_, rfl⟩
  exact (World.arrays_note w (.access purpose array (.store ty address))).trans (List.append_nil _)

/-! ## Arrays for which there is room -/

/-- The elements of an array are stored if they lie in memory. -/
theorem exists_storeElems {values : List UInt64} {k : Nat} (helem : IsValue x.elem)
    (hcount : k + values.length = x.count) (hsize : x.stop ≤ w.memory.size)
    (hstop : x.stop < UInt32.size) :
    ∃ w', storeElems x.address x.elem k values w = .ok () w' ∧ w'.arrays = w.arrays ∧
      w'.frontier = w.frontier := by
  induction values generalizing k w with
  | nil => exact ⟨w, rfl, rfl, rfl⟩
  | cons v rest ih =>
      rw [List.length_cons] at hcount
      have hk : k < x.count := by omega
      have hbounds := (inBounds_newCell helem hk hstop).mpr ((x.cell_lt_stop hk).trans hsize)
      obtain ⟨w₁, hstore, hsize₁, harrays₁, hfrontier₁⟩ := exists_store .make x.address v hbounds
      rw [storeElems, run_bind_ok w hstore]
      rw [← hsize₁] at hsize
      rw [← harrays₁, ← hfrontier₁]
      exact ih (by omega) hsize

theorem Room.run_allocate (h : Room w x) (hfits : fits t length x.elem = true)
    (hlength : x.length = length.toUInt32) :
    allocate t length x.elem w = .ok x.address (w.allocated x) :=
  run_allocate_at hfits h.address hlength (Nat.le_trans x.header_le_stop h.stop_le)

theorem Room.exists_storeElems (h : Room w x) {values : List UInt64}
    (hcount : values.length = x.count) :
    ∃ w', storeElems x.address x.elem 0 values (w.allocated x) = .ok () w' ∧ Adds x w w' := by
  have hsize : x.stop ≤ (w.allocated x).memory.size :=
    h.stop_le.trans_eq (Memory.size_setWord _ _).symm
  have hcount' : 0 + values.length = x.count := (Nat.zero_add _).trans hcount
  obtain ⟨w', hstore, harrays, hfrontier⟩ :=
    Reference.exists_storeElems h.elem hcount' hsize h.stop_lt
  refine ⟨w', hstore, harrays.trans (w.arrays_allocated x), ?_⟩
  rw [hfrontier]
  exact toNat_pastArray h.stop_lt

theorem Room.exists_makeList (h : Room w x) {values : List UInt64}
    (hfits : fits t (Int64.ofNat values.length).toUInt64 x.elem = true)
    (hlength : x.length = (Int64.ofNat values.length).toUInt64.toUInt32)
    (hcount : values.length = x.count) :
    ∃ v w', makeList t x.elem values w = .ok v w' ∧ Adds x w w' := by
  obtain ⟨w', hstore, hadds⟩ := h.exists_storeElems hcount
  refine ⟨x.address.toUInt64, w', ?_, hadds⟩
  rw [makeList, run_bind_ok w (h.run_allocate hfits hlength), run_bind_ok _ hstore, run_pure]

/-- An array of equal elements is made unless fuel runs out, which takes no more fuel than there are
elements. -/
theorem Room.makeFill_cases (h : Room w x) (length value : UInt64)
    (hfits : fits t length x.elem = true) (hlength : x.length = length.toUInt32) :
    (∃ v w', makeFill t x.elem length value w = .ok v w' ∧ Adds x w w') ∨
      ∃ w', makeFill t x.elem length value w = .error .canceled w' ∧ w.fuel ≤ x.count := by
  rw [makeFill, run_bind_ok w (h.run_allocate hfits hlength)]
  obtain ⟨w₁, hstore, hadds⟩ :=
    h.exists_storeElems (List.length_replicate (n := x.count) (a := value))
  obtain ⟨hfuel, w', hcanceled⟩ | hsame := fillArray_eq_storeElems value w h.stop_lt
  · exact .inr ⟨w', run_bind_error _ hcanceled, hfuel⟩
  · rw [hstore] at hsame
    generalize hfill : fillArray _ _ _ _ _ = r at hsame
    cases hsame with
    | ok => exact .inl ⟨_, _, run_bind_ok _ hfill, hadds.arrays, hadds.frontier⟩

/-! ## Arrays for which there is no room -/

/-- No array is made where memory has no room for a header. -/
theorem makeList_of_full {values : List UInt64} {elem : Ty}
    (hfits : fits t (Int64.ofNat values.length).toUInt64 elem = true)
    (hfull : w.memory.size < w.frontier.toNat + Layout.headerSize) :
    ∃ w', makeList t elem values w = .error (.trap (.outOfBounds w.frontier)) w' := by
  have hbounds : ¬inBounds w.memory .i32 w.frontier = true := by
    intro hle
    exact Nat.not_le.mpr hfull (of_decide_eq_true hle)
  have hallocate := run_allocate hfits w
  rw [if_neg hbounds] at hallocate
  rw [makeList]
  exact ⟨_, run_bind_error w hallocate⟩

/-- The first element that does not lie in memory is not stored. -/
theorem storeElems_outside {values : List UInt64} {k j : Nat} (helem : IsValue x.elem)
    (hstop : x.stop < UInt32.size) (hcount : k + values.length = x.count) (hj : j < values.length)
    (hinside : x.cell (k + j) ≤ w.memory.size)
    (houtside : w.memory.size < x.cell (k + j) + Layout.width x.elem) :
    ∃ address w', storeElems x.address x.elem k values w =
      .error (.trap (.outOfBounds address)) w' ∧ address.toNat = x.cell (k + j) := by
  induction values generalizing k j w with
  | nil => exact absurd hj (Nat.not_lt_zero j)
  | cons v rest ih =>
      rw [List.length_cons] at hcount hj
      have hk : k < x.count := by omega
      have hbounds := inBounds_newCell (m := w.memory) helem hk hstop
      rw [storeElems]
      cases j with
      | zero =>
          have hstore := run_store w .make x.address (cellType x.elem)
            (x.address + UInt32.ofNat (Layout.headerSize + k * Layout.width x.elem)) v
          rw [if_neg (hbounds.not.mpr (Nat.not_le.mpr houtside))] at hstore
          exact ⟨_, _, run_bind_error w hstore, toNat_newCell hk hstop⟩
      | succ j =>
          have hbounds := hbounds.mpr ((x.cell_add_le (by omega)).trans hinside)
          obtain ⟨w₁, hstore, hsize₁, -⟩ := exists_store .make x.address v hbounds
          have hindex : k + (j + 1) = k + 1 + j := by omega
          rw [run_bind_ok w hstore]
          rw [hindex] at hinside houtside ⊢
          rw [← hsize₁] at hinside houtside
          exact ih (by omega) (by omega) hinside houtside

/-- An array that is filled past the end of memory halts the run at the first element that does not
lie in memory. -/
theorem makeFill_outside {j : Nat} (length value : UInt64) (helem : IsValue x.elem)
    (hfits : fits t length x.elem = true) (haddress : x.address = w.frontier)
    (hlength : x.length = length.toUInt32) (hstop : x.stop < UInt32.size) (hj : j < x.count)
    (hinside : x.cell j ≤ w.memory.size)
    (houtside : w.memory.size < x.cell j + Layout.width x.elem) (hfuel : x.count < w.fuel) :
    ∃ address w', makeFill t x.elem length value w = .error (.trap (.outOfBounds address)) w' ∧
      address.toNat = x.cell j := by
  have hallocate : allocate t length x.elem w = .ok x.address (w.allocated x) :=
    run_allocate_at hfits haddress hlength (Nat.le_trans (x.header_le_cell j) hinside)
  have hcount : (List.replicate x.count value).length = x.count := List.length_replicate
  rw [← Nat.zero_add j, ← Memory.size_setWord w.memory] at hinside houtside
  obtain ⟨address, w₁, hstore, hcell⟩ := storeElems_outside (w := w.allocated x) helem hstop
    ((Nat.zero_add _).trans hcount) (hj.trans_eq hcount.symm) hinside houtside
  rw [Nat.zero_add] at hcell
  rw [makeFill, run_bind_ok w hallocate]
  obtain ⟨hle, -⟩ | hsame := fillArray_eq_storeElems value w hstop
  · exact absurd hfuel (Nat.not_lt.mpr hle)
  · rw [hstore] at hsame
    generalize hfill : fillArray _ _ _ _ _ = r at hsame
    cases hsame with
    | error => exact ⟨address, _, run_bind_error _ hfill, hcell⟩

end

end ArrayLang.Reference
