import ArrayLang.Proofs.Assembly.IndexErrors
import ArrayLang.Proofs.Heap.Traps
import ArrayLang.Proofs.NormalForm.Unmade

/-!
# The first array of a run

Settings are valid only if memory holds the messages and one array of the largest size.  The sizes
are added as signed 64-bit numbers, so the sum is right unless the largest size is one of the last
four.  Then the first array that a run makes fits into memory if it is allowed at all, and otherwise
the run reports a capacity error.
-/

namespace ArrayLang.Reference

open Source Code Machine Emit Host Typing NormalForm Assembly

/-! ## Room for the largest array -/

section

variable {s : Settings} {major? : String → Option String}

theorem memorySize_le (h : s.memoryPages ≤ Settings.maxPages) : memorySize s ≤ 2 ^ 32 := by
  have hpages : s.memoryPages.toNat ≤ 65536 := UInt32.le_iff_toNat_le.mp h
  rw [memorySize, pageSize]
  omega

theorem toInt_memoryBytes (h : s.memoryPages ≤ Settings.maxPages) :
    s.memoryBytes.toInt = memorySize s :=
  Int64.toInt_ofNat_of_lt (Nat.lt_of_le_of_lt (memorySize_le h) (by decide))

/-- Memory holds the messages, a header and the elements of the largest array, unless the largest
size and that of a header have no sum that is a signed 64-bit number. -/
theorem largest_fits_iff (hvalid : s.validate major? = .ok ()) (hmemory : memoryTooSmall s = false)
    (htier : s.tier = .array) :
    (heapStart + Layout.headerSize : Int) + s.maxArrayBytes.toInt ≤ memorySize s ↔
      s.maxArrayBytes.toInt + Layout.headerSize ≤ Int64.maxValue.toInt := by
  obtain ⟨hpos, hpages, hheader⟩ := sizes_of_validate hvalid
  have hheader := hheader htier
  have hall : Int64.ofNat heapStart + Int64.ofNat Layout.headerSize + s.maxArrayBytes ≤
      s.memoryBytes := by
    rw [memoryTooSmall, htier] at hmemory
    exact Int64.not_lt.mp (by simpa using hmemory)
  have hzero : (0 : Int64).toInt = 0 := by decide
  have hfour : (4 : Int64).toInt = 4 := by decide
  have hstart : (Int64.ofNat heapStart + Int64.ofNat Layout.headerSize).toInt = 28 := by decide
  have hstart' : (heapStart + Layout.headerSize : Int) = 28 := by decide
  have hlast : Int64.maxValue.toInt = 9223372036854775807 := by decide
  have hheaderSize : (Layout.headerSize : Int) = 4 := rfl
  rw [Int64.lt_iff_toInt_lt, hzero] at hpos
  rw [Int64.le_iff_toInt_le, toInt_memoryBytes hpages, Int64.toInt_add,
    Int.bmod_def] at hheader hall
  rw [hfour] at hheader
  rw [hstart] at hall
  rw [hstart', hlast, hheaderSize]
  -- Either sum may be too large, and then it wraps.  If only the second one does, the first one is
  -- larger than any memory.
  have hsize := memorySize_le hpages
  have hmax := s.maxArrayBytes.toInt_lt
  split at hheader <;> split at hall <;> omega

end

/-! ## Initialisers -/

section

variable {tier : Tier} {env : Env} {t : Target} {e : Expr} {w : World} {length : UInt64} {elem : Ty}

theorem isValue_of_asked (h : Formed tier env e) (hasked : asked? w.vars e = some (length, elem)) :
    IsValue elem := by
  obtain ⟨⟨_, htyped⟩, -⟩ := h
  cases htyped with
  | arrayLit _ helem | arrayFill _ helem =>
      obtain ⟨-, rfl⟩ := Prod.mk.inj (Option.some.inj hasked)
      exact helem
  | _ => exact nomatch hasked

/-- An initialiser in normal form reads its operands and makes an array of the listed elements, or
of equal ones. -/
theorem initialiser_cases (t : Target) (h : Formed tier env e)
    (hasked : asked? w.vars e = some (length, elem)) :
    ∃ names,
      (∃ values : List UInt64, length = (Int64.ofNat values.length).toUInt64 ∧
        (values.length : Int) ≤ Int64.maxValue.toInt ∧
        evalExpr t e w = makeList t elem values (w.reads names)) ∨
      ∃ ty n v value, e = .arrayFill ty n v ∧
        evalExpr t e w = makeFill t elem length value (w.reads names) := by
  obtain ⟨-, hnormal, hcountable⟩ := h
  cases e with
  | arrayLit ty elemTy elems =>
      obtain ⟨rfl, rfl⟩ := Prod.mk.inj (Option.some.inj hasked)
      refine ⟨Expr.listNames elems, .inl ⟨elems.map (atomValue w.vars), ?_, ?_, ?_⟩⟩
      · rw [List.length_map]
      · rw [List.length_map]
        exact (countable_cons.mp hcountable).1
      · rw [evalExpr, run_bind_ok w (evalExprs_atoms t w hnormal)]
  | arrayFill ty n v =>
      obtain ⟨rfl, rfl⟩ := Prod.mk.inj (Option.some.inj hasked)
      obtain ⟨hn, hv⟩ := Bool.and_eq_true_iff.mp hnormal
      refine ⟨n.names ++ v.names, .inr ⟨ty, n, v, atomValue w.vars v, rfl, ?_⟩⟩
      rw [evalExpr, run_bind_ok w (evalExpr_atom t w hn), run_bind_ok _ (evalExpr_atom t _ hv),
        World.reads_reads]
      rfl
  | _ => exact nomatch hasked

/-- An initialiser makes its array if there is room for it, unless fuel runs out while the array is
filled. -/
theorem made_or_canceled (h : Formed tier env e)
    (hasked : asked? w.vars e = some (length, elem)) (hfits : fits t length elem = true)
    (hroom : Room w ⟨w.frontier, length.toUInt32, elem⟩) :
    (∃ v w', evalExpr t e w = .ok v w' ∧ Adds ⟨w.frontier, length.toUInt32, elem⟩ w w') ∨
      ∃ w' ty n v, e = .arrayFill ty n v ∧ evalExpr t e w = .error .canceled w' ∧
        w.fuel ≤ length.toUInt32.toNat := by
  obtain ⟨names, ⟨values, rfl, hcount, heval⟩ | ⟨ty, n, v, value, he, heval⟩⟩ :=
    initialiser_cases t h hasked
  · left
    have hlength := (toNat_of_fits hfits).1
    rw [toInt_ofNat hcount] at hlength
    obtain ⟨v, w', hmake, hadds⟩ :=
      (hroom.reads names).exists_makeList hfits rfl (Int.ofNat_inj.mp hlength.symm)
    exact ⟨v, w', heval.trans hmake, hadds.of_reads⟩
  · obtain ⟨v', w', hmake, hadds⟩ | ⟨w', hmake, hfuel⟩ :=
      (hroom.reads names).makeFill_cases length value hfits rfl
    · exact .inl ⟨v', w', heval.trans hmake, hadds.of_reads⟩
    · exact .inr ⟨w', ty, n, v, he, heval.trans hmake, hfuel⟩

/-- An initialiser for an array that is not allowed reports a capacity error. -/
theorem evalExpr_of_not_fits (h : Formed tier env e)
    (hasked : asked? w.vars e = some (length, elem)) (hfits : fits t length elem = false)
    (hmessage : t.capacity.offset.toUInt32.toNat + t.capacity.length.toUInt32.toNat ≤
      w.memory.size) :
    ∃ w', evalExpr t e w = .error (.trap .unreachable) w' ∧
      w'.console = (reported w t.capacity).console := by
  have hallocate (names : List String) : allocate t length elem (w.reads names) =
      .error (.trap .unreachable) (reported (w.reads names) t.capacity) := by
    rw [allocate, hfits]
    exact run_bind_error _ (run_report_eq hmessage)
  obtain ⟨names, ⟨values, rfl, -, heval⟩ | ⟨_, _, _, value, -, heval⟩⟩ :=
    initialiser_cases t h hasked
  · refine ⟨reported (w.reads names) t.capacity, ?_, rfl⟩
    rw [heval, makeList, run_bind_error _ (hallocate names)]
  · refine ⟨reported (w.reads names) t.capacity, ?_, rfl⟩
    rw [heval, makeFill, run_bind_error _ (hallocate names)]

end

/-! ## Runs -/

section

variable {s : Settings} {source : List Stmt} {a : Assembled} {major? : String → Option String}
  {console : Console} {fuel : Nat}
  {e : Expr} {w : World} {length : UInt64} {elem : Ty}

theorem formed_of_stages (st : Stages s source a major?)
    (hcount : Countable (Stmt.listLengths source)) :
    ∀ x ∈ (formOf s.tier source).stmts, StmtFormed s.tier (formOf s.tier source).types x :=
  fun x hx => ⟨st.typed x hx, Stmt.listNormal_iff.mp st.normal x hx,
    (st.countable hcount).of_mem_stmts hx⟩

/-- There is room in a fresh heap for an array that is allowed. -/
theorem room_of_fits
    (hlargest : (heapStart + Layout.headerSize : Int) + s.maxArrayBytes.toInt ≤ memorySize s)
    (hfrontier : w.frontier = UInt32.ofNat heapStart) (hsize : w.memory.size = memorySize s)
    (helem : IsValue elem) (hfits : fits (targetOf s) length elem = true) :
    Room w ⟨w.frontier, length.toUInt32, elem⟩ := by
  obtain ⟨-, hmax, hbytes⟩ := toNat_of_fits hfits
  have hbytes : (length.toUInt32.toNat * Layout.width elem : Int) ≤ s.maxArrayBytes.toInt := hbytes
  have hstop : (⟨w.frontier, length.toUInt32, elem⟩ : Extent).stop =
      heapStart + (Layout.headerSize + length.toUInt32.toNat * Layout.width elem) := by
    rw [hfrontier]
    rfl
  refine ⟨helem, rfl, ?_, ?_⟩
  · rw [hstop, hsize]
    omega
  · have hwidth : length.toUInt32.toNat * Layout.width elem ≤ Layout.maxLength * 8 :=
      Nat.mul_le_mul hmax (width_le elem)
    have hlast : heapStart + (Layout.headerSize + Layout.maxLength * 8) < UInt32.size := by decide
    rw [hstop]
    omega

/-- What becomes of an array of some length that a run of a machine comes to making in a world. -/
structure FirstArray (s : Settings) (m : Machine Console) (fuel : Nat) (e : Expr) (w : World)
    (length : UInt64) (elem : Ty) : Prop where
  /-- An array that is allowed is completed at the start of the heap, unless it is filled and fuel
  runs out. -/
  permitted : fits (targetOf s) length elem = true →
    (∃ v w', evalExpr (targetOf s) e w = .ok v w' ∧
        w'.arrays = [⟨UInt32.ofNat heapStart, length.toUInt32, elem⟩] ∧
        w'.accesses <+: m.runAccesses fuel) ∨
      (∃ ty n v, e = .arrayFill ty n v) ∧ w.fuel ≤ length.toUInt32.toNat ∧
        (m.run fuel).1 = .error .canceled
  /-- Otherwise a capacity error is reported. -/
  refused : fits (targetOf s) length elem = false →
    (m.run fuel).1 = .error (.trap .unreachable) ∧
      (m.run fuel).2.host = (reported w capacityMessage).console
  /-- The report is the message, unless something was stored before. -/
  message : (∀ ty address, .store ty address ∉ w.accesses) →
    (reported w capacityMessage).console = w.console.report (Text.bytesOfText capacityText)

theorem firstArray_of_meets (st : Stages s source a major?)
    (hlargest : (heapStart + Layout.headerSize : Int) + s.maxArrayBytes.toInt ≤ memorySize s)
    (hcount : Countable (Stmt.listLengths source))
    (hmeets : RunMeets (targetOf s) (formOf s.tier source).stmts (startWorld s console fuel) e w)
    (hfresh : w.arrays = []) (hasked : asked? w.vars e = some (length, elem)) :
    FirstArray s (st.machine console) fuel e w length elem := by
  have hformed := hmeets.formed (formed_of_stages st hcount)
  have hleads := hmeets.leads
  have hsize : w.memory.size = memorySize s :=
    hleads.steps.memory_size.trans (size_startWorld s console fuel)
  have hfrontier : w.frontier = UInt32.ofNat heapStart := hleads.steps.frontier_eq hfresh
  obtain ⟨hending, hconsole⟩ := ends_machine st console fuel
  constructor
  case permitted =>
    intro hfits
    have hroom := room_of_fits hlargest hfrontier hsize (isValue_of_asked hformed hasked) hfits
    obtain ⟨v, w', heval, hadds⟩ | ⟨w', ty, n, v, he, heval, hfuel⟩ :=
      made_or_canceled hformed hasked hfits hroom
    · left
      refine ⟨v, w', heval, ?_, ?_⟩
      · rw [hadds.arrays, hfresh, hfrontier, List.nil_append]
      · have hhistory := hleads.history_le_end
        rw [heval] at hhistory
        rw [st.runAccesses_eq console fuel]
        exact hhistory.filterMap Event.access?
    · right
      refine ⟨⟨ty, n, v, he⟩, hfuel, ?_⟩
      rw [hending, runOf, hleads.error heval]
      rfl
  case refused =>
    intro hfits
    have hmessage : capacityMessage.offset.toUInt32.toNat +
        capacityMessage.length.toUInt32.toNat ≤ w.memory.size := by
      rw [hsize]
      exact Nat.le_trans (by decide) st.heapStart_le
    obtain ⟨w', heval, hreported⟩ := evalExpr_of_not_fits hformed hasked hfits hmessage
    rw [hending, hconsole, runOf, hleads.error heval]
    exact ⟨rfl, hreported⟩
  case message =>
    intro hstores
    have hmessages : w.memory.read 0 heapStart = messageBytes := by
      rw [hleads.steps.memory_eq hstores]
      exact messages_startWorld st console fuel
    rw [← (read_messages hmessages).1]
    rfl

/-- Settings that are honoured leave room for one array of the largest size, unless this size is one
of the last four numbers.  Then a run makes nothing before it comes to an initialiser, and the first
array is completed if it is allowed, and otherwise a capacity error is reported. -/
theorem permitted_first_array_fits (hassemble : assemble s (some source) major? = .ok a)
    (htier : s.tier = .array) :
    ((heapStart + Layout.headerSize : Int) + s.maxArrayBytes.toInt ≤ memorySize s ↔
        s.maxArrayBytes.toInt + Layout.headerSize ≤ Int64.maxValue.toInt) ∧
      (s.maxArrayBytes.toInt + Layout.headerSize ≤ Int64.maxValue.toInt →
        Countable (Stmt.listLengths source) →
        ∀ console fuel, ∃ m, Machine.load (some a.module) functions console = .ok m ∧
          (Unmade (endWorld (runOf s source console fuel)) ∨ ∃ e w request,
            RunMeets (targetOf s) (formOf s.tier source).stmts (startWorld s console fuel) e w ∧
              w.arrays = [] ∧ asked? w.vars e = some request) ∧
          ∀ e w length elem,
            RunMeets (targetOf s) (formOf s.tier source).stmts (startWorld s console fuel) e w →
            w.arrays = [] → asked? w.vars e = some (length, elem) →
            FirstArray s m fuel e w length elem) := by
  obtain ⟨st⟩ := exists_stages hassemble
  have hiff := largest_fits_iff st.settings_ok st.memory_ok htier
  refine ⟨hiff, fun hmax hcount console fuel => ?_⟩
  refine ⟨st.machine console, st.load_ok console, ?_, ?_⟩
  · have hstart : Unmade (startWorld s console fuel) := List.forall_mem_nil _
    refine (unmade_or_runFirst (formOf s.tier source).stmts hstart).imp_right ?_
    rintro ⟨e, w, request, hmeets, hunmade, hasked⟩
    exact ⟨e, w, request, hmeets, hunmade.arrays, hasked⟩
  · intro e w length elem hmeets hfresh hasked
    exact firstArray_of_meets st (hiff.mpr hmax) hcount hmeets hfresh hasked

end

/-- A program that makes an array of as many zeros as a variable says. -/
def zeros : List Stmt :=
  [.assign "n" (.int .int 3),
    .assign "a" (.arrayFill (.array .int) (.var .int "n") (.int .int 0))]

/-- The array is the first one, and it is made at the start of the heap. -/
theorem zeros_fit :
    let e : Expr := .arrayFill (.array .int) (.var .int "n") (.int .int 0)
    ∃ a m w v w', assemble .standard (some zeros) = .ok a ∧
      Machine.load (some a.module) functions {} = .ok m ∧
      RunMeets (targetOf .standard) zeros (startWorld .standard {} 10) e w ∧
      evalExpr (targetOf .standard) e w = .ok v w' ∧ w'.arrays = [⟨24, 3, .int⟩] ∧
      w'.accesses <+: m.runAccesses 10 := by
  intro e
  obtain ⟨a, ⟨st⟩⟩ : ∃ a, Nonempty (Stages .standard zeros a) :=
    exists_stages_of_check (by decide) (by decide) (by decide) rfl
  obtain ⟨-, h⟩ := permitted_first_array_fits st.assemble_eq rfl
  obtain ⟨m, hload, -, h⟩ := h (by decide) (by decide) {} 10
  have hfirst : runStmt (targetOf .standard) (.assign "n" (.int .int 3))
      (startWorld .standard {} 10) = .ok () ((startWorld .standard {} 10).assign "n" 3) := by
    rw [runStmt, evalExpr, pure_bind, run_assignVar]
    rfl
  have hmeets : RunMeets (targetOf .standard) zeros (startWorld .standard {} 10) e
      ((startWorld .standard {} 10).assign "n" 3) :=
    ⟨_, [], _, .after hfirst (.here _ _), .assign (.here _ _)⟩
  have hfirst := h e _ 3 .int hmeets rfl rfl
  obtain ⟨v, w', heval, harrays, haccesses⟩ | ⟨-, hfuel, -⟩ := hfirst.permitted (by decide)
  · exact ⟨a, m, _, v, w', st.assemble_eq, hload, hmeets, heval, harrays, haccesses⟩
  · exact absurd hfuel (by decide)

/-! ## Sizes whose sum wraps -/

/-- Settings with one page of memory, and arrays that may have any size. -/
def boundless : Settings :=
  { Settings.standard with maxArrayBytes := Int64.maxValue, memoryPages := 1 }

/-- A program that makes an array which is larger than a page. -/
def spill : List Stmt :=
  [.assign "a" (.arrayFill (.array .int) (.int .int 10000) (.int .int 0))]

theorem ending_spill :
    ending (runOf boundless spill {} 10001) = .error (.trap (.outOfBounds 65532)) := by
  -- The world has a name, since it is too large to be computed.
  obtain ⟨w, hw⟩ : ∃ w, w = startWorld boundless {} 10001 := ⟨_, rfl⟩
  have hmemory : w.memory.size = 65536 := by
    rw [hw, size_startWorld]
    rfl
  have hfrontier : w.frontier = 24 := by
    rw [hw]
    rfl
  have hfuel : w.fuel = 10001 := by
    rw [hw]
    rfl
  have heval : evalExpr (targetOf boundless)
      (.arrayFill (.array .int) (.int .int 10000) (.int .int 0)) =
        makeFill (targetOf boundless) .int 10000 0 := by
    simp only [evalExpr, pure_bind]
    rfl
  have hform : (formOf boundless.tier spill).stmts = spill := rfl
  obtain ⟨address, w', hfill, haddress⟩ := makeFill_outside (t := targetOf boundless) (w := w)
    (x := ⟨24, 10000, .int⟩) (j := 8188) 10000 0 .int (by decide) hfrontier.symm rfl
    (by decide) (by decide) (by rw [hmemory]; decide) (by rw [hmemory]; decide)
    (by rw [hfuel]; decide)
  obtain rfl : address = 65532 := UInt32.toNat_inj.mp haddress
  have hstmt : runStmt (targetOf boundless)
      (.assign "a" (.arrayFill (.array .int) (.int .int 10000) (.int .int 0))) w =
        .error (.trap (.outOfBounds 65532)) w' := by
    rw [runStmt, heval, run_bind_error _ hfill]
  rw [runOf, hform, ← hw, spill, runStmts, run_bind_error _ hstmt]
  rfl

/-- The sum of the sizes wraps, so the settings are honoured although no array of the largest size
fits into memory.  The first array of a program is allowed, but its elements are stored up to the
end of memory, and nothing is reported. -/
theorem spill_out_of_bounds :
    ∃ a m, assemble boundless (some spill) = .ok a ∧
      Machine.load (some a.module) functions {} = .ok m ∧
      ¬(heapStart + Layout.headerSize : Int) + boundless.maxArrayBytes.toInt ≤
        memorySize boundless ∧
      (m.run 10001).1 = .error (.trap (.outOfBounds 65532)) ∧
      (m.run 10001).2.host.stderr = #[] := by
  obtain ⟨a, ⟨st⟩⟩ : ∃ a, Nonempty (Stages boundless spill a) :=
    exists_stages_of_check (by decide) (by decide) (by decide) rfl
  obtain ⟨hend, hconsole⟩ := ends_machine st {} 10001
  have hsilent : ending (runOf boundless spill {} 10001) ≠ .error (.trap .unreachable) := by
    rw [ending_spill]
    simp
  refine ⟨a, st.machine {}, st.assemble_eq, st.load_ok {}, by decide, hend.trans ending_spill, ?_⟩
  rw [hconsole]
  exact stderr_runOf hsilent

end ArrayLang.Reference
