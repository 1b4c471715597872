import ArrayLang.Proofs.Emit.Correct
import ArrayLang.Proofs.Heap.Making
import ArrayLang.Proofs.Machine.Frame

/-!
# Two ways to make an array of equal elements

An array of equal elements can be listed, with a store for each element, or filled, with a loop that
runs up to the frontier.  Both ways come to the same end, also where memory runs out in between, as
long as the array ends below 2 ^ 32.  Only the loop uses the cursor and fuel.
-/

namespace ArrayLang.Reference

open Source Code Machine Emit Host Typing

/-! ## Listing and filling -/

/-- Both computations end in the same way, in worlds that may differ in their fuel. -/
inductive SameButFuel {α : Type} :
    EStateM.Result Halt World α → EStateM.Result Halt World α → Prop
  | ok (a : α) (w : World) (fuel : Nat) : SameButFuel (.ok a w) (.ok a { w with fuel })
  | error (why : Halt) (w : World) (fuel : Nat) :
      SameButFuel (.error why w) (.error why { w with fuel })

/-- To fill the `k` elements up to the frontier takes `k + 1` units of fuel; with as much it does
what `k` stores do. -/
theorem fillFrom_eq_storeElems {base cursor : UInt32} {elem : Ty} {value : UInt64}
    {k position bound fuel : Nat} {w : World}
    (hcursor : cursor = base + UInt32.ofNat (Layout.headerSize + position * Layout.width elem))
    (hfrontier : cursor.toNat + k * Layout.width elem = w.frontier.toNat) (hbound : fuel ≤ bound) :
    (fuel ≤ k ∧ ∃ w', fillFrom base elem value bound cursor { w with fuel } = .error .canceled w') ∨
      SameButFuel (storeElems base elem position (List.replicate k value) w)
        (fillFrom base elem value bound cursor { w with fuel }) := by
  -- The cursor stands at the element with the position, and `k` elements are to come.
  induction k generalizing cursor position bound fuel w with
  | zero =>
      cases bound with
      | zero => exact .inl ⟨hbound, _, rfl⟩
      | succ bound =>
          rw [fillFrom, run_bind, run_tick]
          by_cases hfuel : fuel = 0
          · exact .inl ⟨Nat.le_of_eq hfuel, _, by rw [if_pos hfuel]⟩
          · have hend : ¬cursor < w.frontier := by
              rw [UInt32.lt_iff_toNat_lt]
              omega
            rw [if_neg hfuel]
            dsimp only
            rw [run_bind_ok _ (run_get _), if_neg hend]
            exact .inr (.ok () w (fuel - 1))
  | succ k ih =>
      cases bound with
      | zero => exact .inl ⟨by omega, _, rfl⟩
      | succ bound =>
          rw [fillFrom, run_bind, run_tick]
          by_cases hfuel : fuel = 0
          · exact .inl ⟨by omega, _, by rw [if_pos hfuel]⟩
          · have hwidth := width_pos elem
            rw [Nat.succ_mul] at hfrontier
            have hmore : cursor < w.frontier := by
              rw [UInt32.lt_iff_toNat_lt]
              omega
            rw [if_neg hfuel]
            dsimp only
            rw [run_bind_ok _ (run_get _), if_pos hmore, List.replicate_succ, storeElems, ← hcursor,
              run_bind, run_bind, run_store, run_store]
            by_cases hbounds : inBounds w.memory (cellType elem) cursor = true
            · have hnext : (cursor + UInt32.ofNat (Layout.width elem)).toNat =
                  cursor.toNat + Layout.width elem := by
                have hlt := w.frontier.toNat_lt
                have hle := width_le elem
                rw [UInt32.toNat_add, UInt32.toNat_ofNat']
                omega
              have hcursor' : cursor + UInt32.ofNat (Layout.width elem) = base +
                  UInt32.ofNat (Layout.headerSize + (position + 1) * Layout.width elem) := by
                rw [hcursor, UInt32.add_assoc, ← UInt32.ofNat_add, Nat.succ_mul, Nat.add_assoc]
              have hfrontier' : (cursor + UInt32.ofNat (Layout.width elem)).toNat +
                  k * Layout.width elem = w.frontier.toNat := by
                omega
              let written : World :=
                { w.note (.access .make base (.store (cellType elem) cursor)) with
                  memory := w.memory.write cursor.toNat
                    (Memory.bytesOfWord (cellType elem).size value) }
              rw [if_pos hbounds, if_pos hbounds]
              refine (ih (w := written) hcursor' hfrontier' (Nat.sub_le_of_le_add hbound)).imp ?_ id
              rintro ⟨hle, hcanceled⟩
              exact ⟨Nat.le_add_of_sub_le hle, hcanceled⟩
            · rw [if_neg hbounds, if_neg hbounds]
              exact .inr (.error _ _ (fuel - 1))

/-- A new array is filled as if its elements were stored one by one. -/
theorem fillArray_eq_storeElems {x : Extent} (value : UInt64) (w : World)
    (hstop : x.stop < UInt32.size) :
    let fill := fillArray x.address x.elem value (x.address + UInt32.ofNat Layout.headerSize)
    (w.fuel ≤ x.count ∧ ∃ w', fill (w.allocated x) = .error .canceled w') ∨
      SameButFuel (storeElems x.address x.elem 0 (List.replicate x.count value) (w.allocated x))
        (fill (w.allocated x)) := by
  have hcursor : x.address + UInt32.ofNat Layout.headerSize =
      x.address + UInt32.ofNat (Layout.headerSize + 0 * Layout.width x.elem) := by
    rw [Nat.zero_mul, Nat.add_zero]
  exact fillFrom_eq_storeElems hcursor (toNat_firstCell_add hstop) (Nat.le_refl w.fuel)

/-! ## Executions -/

/-- The states hold the same but for the cursor, the stack and the fuel. -/
structure SameButCursor (t : Target) (s s' : State Console) : Prop where
  memory : s'.memory = s.memory
  frontier : s'.globals.get t.frontier = s.globals.get t.frontier
  locals : ∀ name, name ≠ cursorSlot → s'.locals.get name = s.locals.get name
  host : s'.host = s.host

/-- Both executions go on with the same stack, or both halt for the same reason. -/
inductive SameEnd (t : Target) (stack : List UInt64) : Outcome Console → Outcome Console → Prop
  | next {s s' : State Console} :
      SameButCursor t s s' → s.stack = stack → s'.stack = stack →
        SameEnd t stack (.next s) (.next s')
  | halt {why : Halt} {s s' : State Console} :
      SameButCursor t s s' → SameEnd t stack (.halt why s) (.halt why s')

section

variable {t : Target} {vars : String → UInt64} {base : UInt32} {st : List UInt64}

theorem sameButCursor_of_agree {w : World} {fuel : Nat} {s s' : State Console}
    (harray : t.tier.admits .array = true) (h : Agree t w s) (h' : Agree t { w with fuel } s')
    (hslot : s'.locals.get arraySlot = s.locals.get arraySlot) : SameButCursor t s s' where
  memory := h'.memory.trans h.memory.symm
  frontier := (h'.frontier harray).trans (h.frontier harray).symm
  locals name hname := by
    by_cases hname' : name = arraySlot
    · rw [hname', hslot]
    · exact (h'.vars name hname' hname).trans (h.vars name hname' hname).symm
  host := h'.console.trans h.console.symm

/-- The reference to the array under construction is put on the stack at the end. -/
theorem sameEnd_of_implements {stores fills : Block} {x y : Eval Unit} {w : World}
    {s : State Console} (harray : t.tier.admits .array = true) (hagree : Agree t w s)
    (hs : At (Builds vars base) st s)
    (hstores : Implements t (At (Builds vars base) st) stores x fun _ => At (Builds vars base) st)
    (hfills : Implements t (At (Builds vars base) st) fills y fun _ => At (Builds vars base) st)
    (hspares : Spares arraySlot stores) (hspares' : Spares arraySlot fills)
    (hsame : SameButFuel (x w) (y w)) :
    SameEnd t (base.toUInt64 :: st) (execBlock linked (stores ++ [.localGet arraySlot]) s)
      (execBlock linked (fills ++ [.localGet arraySlot]) s) := by
  have hx := hstores s w hagree hs
  have hy := hfills s w hagree hs
  have hslot : (execBlock linked fills s).state.locals.get arraySlot =
      (execBlock linked stores s).state.locals.get arraySlot :=
    (hspares'.get_eq s).trans (hspares.get_eq s).symm
  rw [observe] at hx hy
  rw [execBlock_append_eq, execBlock_append_eq]
  generalize execBlock linked stores s = o at hx hslot ⊢
  generalize execBlock linked fills s = o' at hy hslot ⊢
  generalize x w = r at hx hsame
  generalize y w = r' at hy hsame
  cases hsame with
  | ok _ w₁ fuel =>
      cases hx with
      | @ok _ _ s₁ _ hagree₁ _ hs₁ =>
          cases hy with
          | @ok _ _ s₂ _ hagree₂ _ hs₂ =>
              obtain ⟨hmemory, hfrontier, hlocals, hhost⟩ :=
                sameButCursor_of_agree harray hagree₁ hagree₂ hslot
              refine .next ⟨hmemory, hfrontier, hlocals, hhost⟩ ?_ ?_
              · exact congrArg₂ List.cons hs₁.locals.2 hs₁.stack
              · exact congrArg₂ List.cons hs₂.locals.2 hs₂.stack
  | error why w₁ fuel =>
      cases hx with
      | halt hagree₁ =>
          cases hy with
          | halt hagree₂ => exact .halt (sameButCursor_of_agree harray hagree₁ hagree₂ hslot)

theorem SameButCursor.refl (s : State Console) : SameButCursor t s s :=
  ⟨rfl, rfl, fun _ _ => rfl, rfl⟩

/-- A length below 2 ^ 32 is that of the new array. -/
theorem toNat_ofNat_length {n : Nat} (h : n < UInt32.size) :
    (Int64.ofNat n).toUInt64.toUInt32.toNat = n := by
  simp only [UInt32.size] at h
  have hmax : Int64.maxValue.toInt = 9223372036854775807 := rfl
  have hint : (Int64.ofNat n).toUInt64.toInt64.toInt = n := toInt_ofNat (by omega)
  have hnat := toNat_eq_toInt (hint.symm ▸ Int.natCast_nonneg n)
  rw [UInt64.toNat_toUInt32]
  omega

/-- From an allocation on, stores and a loop that fills the array come to the same end, unless the
fuel is used up. -/
theorem sameEnd_initialisers {elem : Ty} {v : Expr} {stores : Block} {labels : LoopLabels} {n : Nat}
    (harray : t.tier.admits .array = true) (hmax : 0 < t.maxArrayBytes) (helem : IsValue elem)
    (hv : Plain v) (hlabels : labels.exit ≠ labels.start)
    (hstores : ∀ vars base st, Implements t (At (Builds vars base) st) stores
      (storeElems base elem 0 (List.replicate n (atomValue vars v)))
      fun _ => At (Builds vars base) st)
    (hspares : Spares arraySlot stores)
    (hspares' : Spares arraySlot (fillCode t labels elem (atomCode v))) (s : State Console)
    (hstop : (s.globals.get t.frontier).toNat + Layout.headerSize + n * Layout.width elem <
      UInt32.size) :
    let static := allocation t [.constI64 (Int64.ofNat n)] elem ++
      (stores ++ [.localGet arraySlot])
    let dynamic := allocation t [.constI64 (Int64.ofNat n)] elem ++
      (fillCode t labels elem (atomCode v) ++ [.localGet arraySlot])
    (s.fuel ≤ n ∧ ∃ s', execBlock linked dynamic s = .halt .canceled s') ∨
      SameEnd t (s.globals.get t.frontier :: s.stack) (execBlock linked static s)
        (execBlock linked dynamic s) := by
  have hsmall : (s.globals.get t.frontier).toNat < UInt32.size := by omega
  have hagree : Agree t (worldOf t s) s := agree_worldOf hsmall
  have halloc := implements_allocation s.locals.get s.stack harray hmax elem
    (plain_int .int (Int64.ofNat n)) s (worldOf t s) hagree ⟨rfl, hagree.holds⟩
  have hbase := hagree.frontier harray
  rw [observe, atomCode] at halloc
  intro static dynamic
  rw [execBlock_append_eq, execBlock_append_eq]
  generalize hrun : allocate t _ elem (worldOf t s) = r at halloc
  generalize execBlock linked (allocation t [.constI64 (Int64.ofNat n)] elem) s = o at halloc ⊢
  cases halloc with
  | halt => exact .inr (.halt (.refl _))
  | @ok base w₁ s₁ _ hagree₁ _ hs₁ =>
      obtain ⟨-, -, rfl, rfl⟩ := exists_of_allocate hrun
      let x : Extent := ⟨(worldOf t s).frontier, (Int64.ofNat n).toUInt64.toUInt32, elem⟩
      have hcount : x.count = n := by
        have hle : n ≤ n * Layout.width elem := Nat.le_mul_of_pos_right n (width_pos elem)
        exact toNat_ofNat_length (by omega)
      have hstop' : x.stop < UInt32.size := by
        have haddress : x.address.toNat = (s.globals.get t.frontier).toNat :=
          (UInt64.toNat_toUInt32 _).trans (Nat.mod_eq_of_lt hsmall)
        rw [Extent.stop, Extent.bytes, hcount, haddress, ← Nat.add_assoc]
        exact hstop
      have hfills : Implements t (At (Builds s.locals.get x.address) s.stack)
          (fillCode t labels elem (atomCode v))
          (fillArray x.address elem (atomValue s.locals.get v)
            (x.address + UInt32.ofNat Layout.headerSize))
          fun _ => At (Builds s.locals.get x.address) s.stack :=
        implements_fillCode harray helem hv hlabels
      obtain ⟨hfuel, w', hcanceled⟩ | hsame :=
        fillArray_eq_storeElems (atomValue s.locals.get v) (worldOf t s) hstop'
      · obtain ⟨s', hhalt, -⟩ := hfills.exec_error hagree₁ hs₁ hcanceled
        refine .inl ⟨hcount ▸ hfuel, s', ?_⟩
        rw [Outcome.andThen, execBlock_append_eq, hhalt]
        rfl
      · rw [hcount] at hsame
        rw [hbase]
        exact .inr (sameEnd_of_implements harray hagree₁ hs₁ (hstores _ _ _) hfills hspares hspares'
          hsame)

/-! ## Emitted code -/

variable {env : Env} {elem : Ty} {v : Expr}

theorem spares_atomCode (name : String) (e : Expr) : Spares name (atomCode e) := by
  cases e <;> simp [Spares, atomCode, leaves, Instr.leaves]

theorem spares_elementStore (vt : ValType) (position : Nat) (e : Expr) :
    Spares arraySlot (elementStore elem vt position (atomCode e)) := by
  refine Spares.append (Spares.append ?_ (spares_atomCode _ e)) ?_
  · simp [Spares, leaves, Instr.leaves, i32Const]
  · simp [Spares, leaves, Instr.leaves]

theorem spares_storesCode (position : Nat) (elems : List Expr) :
    Spares arraySlot (storesCode elem position elems) := by
  induction elems generalizing position with
  | nil => exact nofun
  | cons e rest ih => exact (spares_elementStore _ position e).append (ih (position + 1))

theorem spares_fillCode (labels : LoopLabels) (e : Expr) :
    Spares arraySlot (fillCode t labels elem (atomCode e)) := by
  have hloop : Spares arraySlot [fillLoop t labels elem (cellType elem) (atomCode e)] := by
    refine .block labels.exit (.loop labels.start (Spares.append ?_ ?_))
    · refine Spares.append ?_ (spares_atomCode arraySlot e)
      simp [Spares, leaves, Instr.leaves, i32Const]
    · simp [Spares, leaves, Instr.leaves, i32Const, arraySlot, cursorSlot]
  have hstart : Spares arraySlot [.localGet arraySlot, i32Const Layout.headerSize,
      .arith .i32 .add, .localSet cursorSlot] := by
    simp [Spares, leaves, Instr.leaves, i32Const, arraySlot, cursorSlot]
  exact hstart.append hloop

/-- Code for an array of listed elements that are all the same. -/
theorem emitted_listed (harray : t.tier.admits .array = true) (helem : IsValue elem)
    (hv : HasType t.tier env v elem) (hplain : Plain v) (n : Nat) :
    Emitted (Emit.expr t (.arrayLit (.array elem) elem (List.replicate n v))) fun code =>
      ∃ stores, code = allocation t [.constI64 (Int64.ofNat n)] elem ++
          (stores ++ [.localGet arraySlot]) ∧
        Spares arraySlot stores ∧
        ∀ vars base st, Implements t (At (Builds vars base) st) stores
          (storeElems base elem 0 (List.replicate n (atomValue vars v)))
          fun _ => At (Builds vars base) st := by
  have htyped : ∀ e ∈ List.replicate n v, HasType t.tier env e elem := by
    intro e he
    rwa [List.eq_of_mem_replicate he]
  have hplains : ∀ e ∈ List.replicate n v, Plain e := by
    intro e he
    rwa [List.eq_of_mem_replicate he]
  rw [Emit.expr]
  refine Emitted.bind (Q := fun _ => True) (emitted_requireTier _ harray) ?_
  intro _ _
  refine (emitted_listCode helem _ htyped hplains).mono ?_
  rintro _ rfl
  refine ⟨storesCode elem 0 (List.replicate n v), ?_, spares_storesCode 0 _, ?_⟩
  · rw [List.length_replicate]
  · intro vars base st
    rw [← List.map_replicate]
    exact implements_storesCode helem 0 hplains

/-- Code for an array of equal elements with a literal length. -/
theorem emitted_filled (harray : t.tier.admits .array = true) (helem : IsValue elem)
    (hv : HasType t.tier env v elem) (hplain : Plain v) (n : Int64) :
    Emitted (Emit.expr t (.arrayFill (.array elem) (.int .int n) v)) fun code =>
      ∃ labels : LoopLabels, labels.exit ≠ labels.start ∧
        code = allocation t [.constI64 n] elem ++
          (fillCode t labels elem (atomCode v) ++ [.localGet arraySlot]) := by
  have hn : HasType t.tier env (.int .int n) .int := .int (Tier.admits_loop_of_array harray)
  rw [Emit.expr]
  refine Emitted.bind (Q := fun _ => True) (emitted_requireTier _ harray) ?_
  intro _ _
  exact emitted_fillCode helem hn hv (plain_int .int n) hplain

/-- For every literal or variable there is code that lists it `n` times, and code that fills an
array of length `n` with it.  From every state in which the array would end below 2 ^ 32 both come
to the same end, unless there are no more than `n` units of fuel and the loop is cancelled. -/
theorem listed_and_filled_agree (htier : t.tier = .array) (hvalid : t.validate = .ok ())
    (helem : IsValue elem) (hv : HasType t.tier env v elem) (hatomic : v.isAtomic = true)
    (harray : arraySlot ∉ v.names) (hcursor : cursorSlot ∉ v.names) (n : Nat) (p p' : Progress) :
    ∃ static dynamic q q',
      (Emit.expr t (.arrayLit (.array elem) elem (List.replicate n v))).run p = (.ok static, q) ∧
      (Emit.expr t (.arrayFill (.array elem) (.int .int (Int64.ofNat n)) v)).run p' =
        (.ok dynamic, q') ∧
      ∀ s : State Console,
        (s.globals.get t.frontier).toNat + Layout.headerSize + n * Layout.width elem <
          UInt32.size →
        (s.fuel ≤ n ∧ ∃ s', execBlock linked dynamic s = .halt .canceled s') ∨
          SameEnd t (s.globals.get t.frontier :: s.stack) (execBlock linked static s)
            (execBlock linked dynamic s) := by
  have hadmits : t.tier.admits .array = true := by
    rw [htier]
    decide
  have hmax := Target.maxArrayBytes_pos htier hvalid
  have hplain : Plain v := ⟨hatomic, harray, hcursor⟩
  obtain ⟨_, q, hstatic, stores, rfl, hspares, hstores⟩ :=
    emitted_listed hadmits helem hv hplain n p
  obtain ⟨_, q', hdynamic, labels, hlabels, rfl⟩ :=
    emitted_filled hadmits helem hv hplain (Int64.ofNat n) p'
  refine ⟨_, _, q, q', hstatic, hdynamic, ?_⟩
  intro s hstop
  exact sameEnd_initialisers hadmits hmax helem hplain hlabels hstores hspares
    (spares_fillCode labels v) s hstop

/-- Three times the value of a variable, where memory has room for two elements. -/
theorem three_listed_and_filled_agree :
    let t := Assembly.targetOf .standard
    let s : State Console := ⟨.zeros 36, [(t.frontier, 24)], [("b", 1)], [7], {}, 4⟩
    ∃ static dynamic q q',
      (Emit.expr t (.arrayLit (.array .bool) .bool (List.replicate 3 (.var .bool "b")))).run {} =
        (.ok static, q) ∧
      (Emit.expr t (.arrayFill (.array .bool) (.int .int 3) (.var .bool "b"))).run {} =
        (.ok dynamic, q') ∧
      SameEnd t [24, 7] (execBlock linked static s) (execBlock linked dynamic s) := by
  intro t s
  have hb : HasType t.tier [⟨"b", .bool⟩] (.var .bool "b") .bool := .var rfl rfl .bool
  obtain ⟨static, dynamic, q, q', hstatic, hdynamic, hagree⟩ :=
    listed_and_filled_agree rfl rfl .bool hb rfl (by decide) (by decide) 3 {} {}
  refine ⟨static, dynamic, q, q', hstatic, hdynamic, (hagree s (by decide)).resolve_left ?_⟩
  exact fun hcanceled => absurd hcanceled.1 (by decide)

end

end ArrayLang.Reference
