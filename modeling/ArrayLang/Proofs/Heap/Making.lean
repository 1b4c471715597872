import ArrayLang.Proofs.Heap.Sound

/-!
# Arrays that are made

A new array starts at the frontier with its header.  While its elements are stored, the heap is
typed but for the elements that are still to come.
-/

namespace ArrayLang.Reference

open Source Code Machine Emit Typing

/-- The world after the header of an array was written at the frontier. -/
def World.allocated (w : World) (x : Extent) : World :=
  let header := Layout.encodeHeader x.length (Layout.ElemKind.ofTy x.elem).code
  let written : World :=
    { w.note (.access .make x.address (.store .i32 x.address)) with
      memory := w.memory.setWord .i32 x.address.toNat header.toUInt64 }
  { written.note (.made x) with frontier := pastArray x.address x.length x.elem }

section

variable {R : Regime} {w : World} {x : Extent} {length value : UInt64} {elem : Ty}

theorem run_allocate {t : Target} (hfits : fits t length elem = true) (w : World) :
    allocate t length elem w =
      if inBounds w.memory .i32 w.frontier then
        .ok w.frontier (w.allocated ⟨w.frontier, length.toUInt32, elem⟩)
      else .error (.trap (.outOfBounds w.frontier))
        (w.note (.access .make w.frontier (.store .i32 w.frontier))) := by
  rw [allocate, hfits, run_bind_ok w (run_require_true w _), run_bind_ok w (run_get w)]
  have hstore := run_store w .make w.frontier .i32 w.frontier
    (Layout.encodeHeader length.toUInt32 (Layout.ElemKind.ofTy elem).code).toUInt64
  by_cases hbounds : inBounds w.memory .i32 w.frontier = true
  · rw [if_pos hbounds] at hstore ⊢
    rw [run_bind_ok w hstore]
    rfl
  · rw [if_neg hbounds] at hstore ⊢
    rw [run_bind_error w hstore]

/-- Allocation that ends well has checked the length and the room for the header. -/
theorem exists_of_allocate {t : Target} {w' : World} {base : UInt32}
    (hrun : allocate t length elem w = .ok base w') :
    fits t length elem = true ∧ inBounds w.memory .i32 w.frontier = true ∧ base = w.frontier ∧
      w' = w.allocated ⟨w.frontier, length.toUInt32, elem⟩ := by
  have hfits : fits t length elem = true := by
    rw [allocate] at hrun
    obtain ⟨_, _, hrequire, -⟩ := exists_of_run_bind hrun
    exact (of_run_require hrequire).1
  rw [run_allocate hfits] at hrun
  split at hrun
  · next hbounds =>
      obtain ⟨rfl, rfl⟩ := EStateM.Result.ok.inj hrun
      exact ⟨hfits, hbounds, rfl, rfl⟩
  · exact nomatch hrun

/-- A length that fits is that of the new array. -/
theorem toNat_of_fits {t : Target} (h : fits t length elem = true) :
    (length.toUInt32.toNat : Int) = length.toInt64.toInt ∧
      length.toUInt32.toNat ≤ Layout.maxLength ∧
      (length.toUInt32.toNat * Layout.width elem : Int) ≤ t.maxArrayBytes.toInt := by
  simp only [fits, Bool.and_eq_true, decide_eq_true_eq] at h
  obtain ⟨⟨hnonneg, hbytes⟩, hmax⟩ := h
  have hnat := toNat_eq_toInt hnonneg
  have hwrap : length.toUInt32.toNat = length.toNat := by
    rw [UInt64.toNat_toUInt32, Nat.mod_eq_of_lt]
    simp only [Layout.maxLength] at hmax
    omega
  rw [hwrap, hnat]
  exact ⟨rfl, by omega, hbytes⟩

theorem toNat_pastArray_eq_mod :
    (pastArray x.address x.length x.elem).toNat = x.stop % UInt32.size := by
  rw [Extent.stop, Extent.bytes, Extent.count, pastArray, UInt32.toNat_add, UInt32.toNat_add,
    UInt32.toNat_mul]
  rcases width_eq x.elem with hwidth | hwidth
  all_goals
    rw [hwidth]
    simp only [Layout.headerSize, UInt32.size, UInt32.toNat_ofNat']
    omega

theorem toNat_pastArray (h : x.stop < UInt32.size) :
    (pastArray x.address x.length x.elem).toNat = x.stop := by
  rw [toNat_pastArray_eq_mod, Nat.mod_eq_of_lt h]

theorem World.history_allocated (w : World) (x : Extent) :
    (w.allocated x).history =
      w.history ++ [.access .make x.address (.store .i32 x.address), .made x] := by
  simp [World.allocated]

theorem World.mem_arrays_allocated (w : World) (x : Extent) : x ∈ (w.allocated x).arrays := by
  rw [World.arrays, World.history_allocated, List.mem_filterMap]
  exact ⟨.made x, by simp, rfl⟩

theorem TypedHeap.allocated (h : TypedHeap R Extent.count w) (haddress : x.address = w.frontier)
    (helem : IsValue x.elem) (hcount : x.count ≤ Layout.maxLength)
    (hsize : x.address.toNat + Layout.headerSize ≤ w.memory.size) (hstop : x.stop < UInt32.size) :
    TypedHeap R (Function.update Extent.count x 0) (w.allocated x) := by
  have hnote : TypedHeap R Extent.count
      (w.note (.access .make x.address (.store .i32 x.address))) := by
    refine h.note rfl (by simp) (h.logged.concat ?_)
    rintro _ _ _ ⟨rfl, rfl, rfl⟩ hmake
    exact absurd rfl hmake
  have hfree : w.frontier.toNat ≤ x.address.toNat := by
    rw [haddress]
  have hwritten : TypedHeap R Extent.count
      { w.note (.access .make x.address (.store .i32 x.address)) with
        memory := w.memory.setWord .i32 x.address.toNat
          (Layout.encodeHeader x.length (Layout.ElemKind.ofTy x.elem).code).toUInt64 } :=
    hnote.setFree hfree _
  refine hwritten.made haddress (toNat_pastArray hstop).symm ?_
  refine ⟨helem, hcount, hstop, Nat.zero_le _, ?_, ?_, by simp⟩
  · rw [Extent.cell, Nat.zero_mul, Nat.add_zero, Memory.size_setWord]
    exact hsize
  · refine (Memory.word_setWord_self w.memory _ (Or.inl rfl) hsize).trans ?_
    simp [narrow]

/-- A store for a new array that is out of bounds halts the run. -/
theorem TypedHeap.halts_of_outOfBounds {filled : Extent → Nat} {w' : World} {base address : UInt32}
    {ty : ValType} (h : TypedHeap R filled w) (hbounds : ¬inBounds w.memory ty address = true)
    (hfull : w.memory.size < Assembly.heapStart + (w.arrays.map Extent.bytes).sum +
      Layout.headerSize) :
    Halts R w' (.trap (.outOfBounds address)) (w.note (.access .make base (.store ty address))) := by
  have hmade : madeIn (w.history ++ [.access .make base (.store ty address)]) = w.arrays := by
    simp [madeIn, World.arrays, Event.made?]
  refine ⟨h.logged.concat ?_, h.messages, by simp, ?_⟩
  · rintro _ _ _ ⟨rfl, rfl, rfl⟩ hmake
    exact absurd rfl hmake
  · rintro _ ⟨rfl⟩
    rw [← h.size]
    constructor
    · have houtside : ¬address.toNat + ty.size ≤ w.memory.size :=
        fun hle => hbounds (decide_eq_true hle)
      exact ⟨_, _, _, rfl, Nat.not_le.mp houtside⟩
    · rw [World.history_note, hmade]
      exact hfull

theorem sound_allocate (h : TypedHeap R Extent.count w) (helem : IsValue elem) :
    Sound R (allocate R.target length elem) w fun base w' =>
      ∃ x ∈ w'.arrays, x.address = base ∧ x.elem = elem ∧
        (x.count : Int) = length.toInt64.toInt ∧ w'.frontier.toNat = x.stop ∧
        TypedHeap R (Function.update Extent.count x 0) w' := by
  by_cases hfits : fits R.target length elem = true
  · intro hcareful
    rw [run_allocate hfits] at hcareful ⊢
    by_cases hbounds : inBounds w.memory .i32 w.frontier = true
    · rw [if_pos hbounds] at hcareful ⊢
      obtain ⟨hlength, hmax, hbytes⟩ := toNat_of_fits hfits
      have hsize : w.frontier.toNat + Layout.headerSize ≤ w.memory.size :=
        of_decide_eq_true hbounds
      have hstop : (⟨w.frontier, length.toUInt32, elem⟩ : Extent).stop < UInt32.size := by
        by_cases hroomy : R.Roomy
        · have hroom := hroomy
          rw [Regime.Roomy, ← h.size] at hroom
          simp only [Extent.stop, Extent.bytes, Extent.count]
          omega
        · refine hcareful.made hroomy _ ?_
          simp [endWorld, World.history_allocated]
      refine .ok ⟨_, World.mem_arrays_allocated w _, rfl, rfl, hlength, toNat_pastArray hstop, ?_⟩
      exact h.allocated rfl helem hmax hsize hstop
    · rw [if_neg hbounds]
      refine .error (h.halts_of_outOfBounds hbounds ?_)
      rw [← h.tiled.stop_eq]
      exact Nat.not_le.mp fun hle => hbounds (decide_eq_true hle)
  · rw [allocate]
    refine Sound.bind (sound_require h _ (by simp)) ?_
    rintro - _ - ⟨hok, rfl⟩
    exact absurd hok hfits

/-! ## Elements -/

/-- The next element of a new array is stored. -/
theorem sound_storeNew {k : Nat} {address : UInt32}
    (h : TypedHeap R (Function.update Extent.count x k) w) (hx : x ∈ w.arrays) (hk : k < x.count)
    (haddress : address.toNat = x.cell k) (hvalue : Proper R.nulls w.arrays x.elem value) :
    Sound R (store .make x.address (cellType x.elem) address value) w fun _ w' =>
      TypedHeap R (Function.update Extent.count x (k + 1)) w' ∧ w'.arrays = w.arrays ∧
        w'.frontier = w.frontier := by
  intro _
  have harrays : (w.note (.access .make x.address
      (.store (cellType x.elem) address))).arrays = w.arrays := by
    rw [World.arrays_note]
    exact List.append_nil _
  have hnote : TypedHeap R (Function.update Extent.count x k)
      (w.note (.access .make x.address (.store (cellType x.elem) address))) := by
    refine h.note rfl (by simp) (h.logged.concat ?_)
    rintro _ _ _ ⟨rfl, rfl, rfl⟩ hmake
    exact absurd rfl hmake
  rw [run_store]
  split
  · rename_i hbounds
    have hsize : x.cell k + Layout.width x.elem ≤ w.memory.size := by
      rw [← haddress, ← size_cellType (h.kept x hx).isValue]
      exact of_decide_eq_true hbounds
    have hset : TypedHeap R (Function.update Extent.count x (k + 1))
        { w.note (.access .make x.address (.store (cellType x.elem) address)) with
          memory := w.memory.setWord (cellType x.elem) (x.cell k) value } :=
      hnote.setElem (harrays.symm ▸ hx) (harrays.symm ▸ hvalue) hk hsize
      (by rw [Function.update_self]; exact hk)
      (by rw [Function.update_self, Extent.cell_succ]; exact hsize)
      (by simpa using fun j hj => Nat.lt_succ_iff_lt_or_eq.mp hj)
      (by intro y hy; rw [Function.update_of_ne hy, Function.update_of_ne hy])
    rw [← haddress] at hset
    exact .ok ⟨hset, harrays, rfl⟩
  · next hbounds =>
      have houtside : ¬x.cell k + Layout.width x.elem ≤ w.memory.size := by
        rw [← haddress, ← size_cellType (h.kept x hx).isValue]
        exact fun hle => hbounds (decide_eq_true hle)
      have hcell := x.cell_lt_stop hk
      have hstop := (h.tiled.of_mem hx).2
      refine .error (h.halts_of_outOfBounds hbounds ?_)
      rw [← h.tiled.stop_eq]
      omega

theorem toNat_newCell {k : Nat} (hk : k < x.count) (hstop : x.stop < UInt32.size) :
    (x.address + UInt32.ofNat (Layout.headerSize + k * Layout.width x.elem)).toNat =
      x.cell k := by
  have hcell := x.cell_lt_stop hk
  rw [Extent.cell] at hcell ⊢
  rw [UInt32.toNat_add, UInt32.toNat_ofNat']
  simp only [UInt32.size] at hstop
  rw [Nat.mod_eq_of_lt (by omega : Layout.headerSize + k * Layout.width x.elem < 2 ^ 32),
    Nat.mod_eq_of_lt (by omega), Nat.add_assoc]

theorem toNat_firstCell (hstop : x.stop < UInt32.size) :
    (x.address + UInt32.ofNat Layout.headerSize).toNat = x.cell 0 := by
  have hheader := x.header_le_stop
  simp only [UInt32.size, Layout.headerSize] at hstop hheader
  rw [UInt32.toNat_add, UInt32.toNat_ofNat', Extent.cell, Nat.zero_mul]
  simp only [Layout.headerSize]
  omega

/-- The elements of a new array take the bytes up to the frontier. -/
theorem toNat_firstCell_add (hstop : x.stop < UInt32.size) :
    (x.address + UInt32.ofNat Layout.headerSize).toNat + x.count * Layout.width x.elem =
      (w.allocated x).frontier.toNat := by
  have hfrontier : (w.allocated x).frontier.toNat = x.stop := toNat_pastArray hstop
  rw [toNat_firstCell hstop, hfrontier, ← x.cell_count, Extent.cell, Extent.cell, Nat.zero_mul,
    Nat.add_zero]

theorem sound_storeElems {values : List UInt64} {k : Nat}
    (h : TypedHeap R (Function.update Extent.count x k) w) (hx : x ∈ w.arrays)
    (hcount : k + values.length = x.count)
    (hvalues : ∀ v ∈ values, Proper R.nulls w.arrays x.elem v) :
    Sound R (storeElems x.address x.elem k values) w fun _ w' =>
      TypedHeap R Extent.count w' ∧ x ∈ w'.arrays := by
  induction values generalizing k w with
  | nil =>
      rw [storeElems]
      rw [List.length_nil, Nat.add_zero] at hcount
      rw [hcount] at h
      exact Sound.pure ⟨h.complete, hx⟩
  | cons v rest ih =>
      obtain ⟨hv, hrest⟩ := List.forall_mem_cons.mp hvalues
      rw [List.length_cons] at hcount
      have hk : k < x.count := by omega
      rw [storeElems]
      refine Sound.bind (sound_storeNew h hx hk (toNat_newCell hk (h.kept x hx).stop_lt) hv) ?_
      rintro - w₁ - ⟨h₁, harrays, -⟩
      exact ih h₁ (harrays.symm ▸ hx) (by omega) (harrays.symm ▸ hrest)

theorem toInt_ofNat {n : Nat} (h : (n : Int) ≤ Int64.maxValue.toInt) :
    (Int64.ofNat n).toUInt64.toInt64.toInt = n := by
  have hmax : Int64.maxValue.toInt = 9223372036854775807 := rfl
  rw [Int64.toInt64_toUInt64, Int64.toInt_ofNat_of_lt]
  omega

theorem sound_makeList {values : List UInt64} (h : TypedHeap R Extent.count w)
    (helem : IsValue elem) (hlength : (values.length : Int) ≤ Int64.maxValue.toInt)
    (hvalues : ∀ v ∈ values, Proper R.nulls w.arrays elem v) :
    Sound R (makeList R.target elem values) w fun v w' =>
      TypedHeap R Extent.count w' ∧ Proper R.nulls w'.arrays (.array elem) v := by
  rw [makeList]
  refine Sound.bind (sound_allocate h helem) ?_
  rintro _ w₁ hrun ⟨x, hx, rfl, rfl, hcount, -, h₁⟩
  rw [toInt_ofNat hlength] at hcount
  have hvalues' (v : UInt64) (hv : v ∈ values) : Proper R.nulls w₁.arrays x.elem v :=
    (hvalues v hv).mono (arrays_subset hrun)
  refine Sound.bind (sound_storeElems h₁ hx (by omega) hvalues') ?_
  rintro - w₂ - ⟨h₂, hx₂⟩
  exact Sound.pure ⟨h₂, Or.inr ⟨x, hx₂, rfl, rfl⟩⟩

theorem sound_fillFrom {k bound : Nat} {cursor : UInt32}
    (h : TypedHeap R (Function.update Extent.count x k) w) (hx : x ∈ w.arrays)
    (hfrontier : w.frontier.toNat = x.stop) (hk : k ≤ x.count)
    (hcursor : cursor.toNat = x.cell k) (hvalue : Proper R.nulls w.arrays x.elem value) :
    Sound R (fillFrom x.address x.elem value bound cursor) w fun _ w' =>
      TypedHeap R Extent.count w' ∧ x ∈ w'.arrays := by
  induction bound generalizing k w cursor with
  | zero => exact Sound.throw (h.halts (by simp))
  | succ bound ih =>
      rw [fillFrom]
      refine Sound.bind (sound_tick h) ?_
      rintro - w₁ - ⟨h₁, harrays, hfrontier₁⟩
      intro hcareful
      rw [run_bind_ok w₁ (run_get w₁)] at hcareful ⊢
      revert hcareful
      rw [← hfrontier₁] at hfrontier
      rw [← harrays] at hx hvalue
      have hstop := (h₁.kept x hx).stop_lt
      refine Sound.ifElse (fun hlt => ?_) (fun hge => ?_)
      · have hk' : k < x.count := by
          refine Nat.lt_of_not_le fun hle => ?_
          have hlt' : cursor.toNat < w₁.frontier.toNat := hlt
          have hcell := x.cell_mono hle
          rw [Extent.cell_count] at hcell
          omega
        refine Sound.bind (sound_storeNew h₁ hx hk' hcursor hvalue) ?_
        rintro - w₂ - ⟨h₂, harrays₂, hfrontier₂⟩
        refine ih h₂ (harrays₂.symm ▸ hx) (by rw [hfrontier₂]; exact hfrontier) hk' ?_
          (harrays₂.symm ▸ hvalue)
        have hcell := x.cell_lt_stop hk'
        have hwidth := width_le x.elem
        simp only [UInt32.size] at hstop
        rw [UInt32.toNat_add, UInt32.toNat_ofNat', hcursor, Extent.cell_succ]
        omega
      · have hcount : k = x.count := by
          refine Nat.le_antisymm hk (Nat.le_of_not_lt fun hlt => ?_)
          have hge' : ¬cursor.toNat < w₁.frontier.toNat := hge
          have hcell := x.cell_lt_stop hlt
          have hwidth := width_pos x.elem
          omega
        rw [hcount] at h₁
        exact Sound.pure ⟨h₁.complete, hx⟩

theorem sound_makeFill (h : TypedHeap R Extent.count w) (helem : IsValue elem)
    (hvalue : Proper R.nulls w.arrays elem value) :
    Sound R (makeFill R.target elem length value) w fun v w' =>
      TypedHeap R Extent.count w' ∧ Proper R.nulls w'.arrays (.array elem) v := by
  rw [makeFill]
  refine Sound.bind (sound_allocate h helem) ?_
  rintro _ w₁ hrun ⟨x, hx, rfl, rfl, -, hfrontier, h₁⟩
  have hcursor := toNat_firstCell (h₁.kept x hx).stop_lt
  refine Sound.bind (sound_fillFrom h₁ hx hfrontier (Nat.zero_le _) hcursor
    (hvalue.mono (arrays_subset hrun))) ?_
  rintro - w₂ - ⟨h₂, hx₂⟩
  exact Sound.pure ⟨h₂, Or.inr ⟨x, hx₂, rfl, rfl⟩⟩

end

end ArrayLang.Reference
