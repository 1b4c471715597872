import ArrayLang.Proofs.Heap.Typed
import ArrayLang.Proofs.Reference.Steps

/-!
# Computations that keep the heap typed

Two things can lead a run astray: a reference that is 0, and an array that reaches past the last
address.  A computation is sound if it keeps the heap typed whenever its history shows neither.  If
it halts with a report, the report is one of the two messages.  If an access is out of bounds, it was
to store a part of a new array for which memory has no room.
-/

namespace ArrayLang.Reference

open Source Code Machine Emit Typing

/-- An array that starts in memory ends below the last address. -/
def Regime.Roomy (R : Regime) : Prop :=
  (R.size : Int) + R.target.maxArrayBytes.toInt < UInt32.size

/-- Nothing in a history leads astray.  If references may be 0, no access goes through such a
reference; otherwise no reference is read before it is assigned. -/
structure Careful (R : Regime) (history : List Event) : Prop where
  made : ¬R.Roomy → ∀ x, .made x ∈ history → x.stop < UInt32.size
  reads : ¬R.nulls → ∀ before name elem, before ++ [.read name] <+: history →
    R.env.find? name = some (.array elem) → .assign name ∈ before
  refs : R.nulls → ∀ before purpose array a, before ++ [.access purpose array a] <+: history →
    purpose ≠ .make → array ≠ 0 ∨ ∃ x ∈ madeIn before, x.address = array

/-- Memory of a size has no room left: a part of a new array was to be stored at an address out of
bounds, and the arrays made so far leave no room for another one. -/
structure Exhausted (size : Nat) (address : UInt32) (history : List Event) : Prop where
  last : ∃ before base ty, history = before ++ [.access .make base (.store ty address)] ∧
    size < address.toNat + ty.size
  full : size < Assembly.heapStart + ((madeIn history).map Extent.bytes).sum + Layout.headerSize

/-- How a run from `w` may halt: its accesses were in order, the messages are as at the start, a
report is one of them, and no access was out of bounds unless memory has no room left. -/
structure Halts (R : Regime) (w : World) (why : Halt) (w' : World) : Prop where
  logged : Logged w'.history
  messages : w'.memory.read 0 Assembly.heapStart = Assembly.messageBytes
  reported : why = .trap .unreachable → ∃ msg ∈ [R.target.capacity, R.target.index],
    w'.console.stderr = (w.console.report
      (w'.memory.read msg.offset.toUInt32.toNat msg.length.toUInt32.toNat)).stderr
  exhausted : ∀ address, why = .trap (.outOfBounds address) →
    Exhausted R.size address w'.history

/-- A result of a run from `w` is as `Q` says, or the run has halted. -/
inductive Lands (R : Regime) (w : World) {α : Type} (Q : α → World → Prop) :
    EStateM.Result Halt World α → Prop
  | ok {a : α} {w' : World} : Q a w' → Lands R w Q (.ok a w')
  | error {why : Halt} {w' : World} : Halts R w why w' → Lands R w Q (.error why w')

/-- If nothing leads a computation astray, its result is as `Q` says. -/
def Sound (R : Regime) {α : Type} (c : Eval α) (w : World) (Q : α → World → Prop) : Prop :=
  Careful R (endWorld (c w)).history → Lands R w Q (c w)

section

variable {R : Regime} {α β : Type} {w : World}

theorem Careful.of_prefix {history history' : List Event} (h : Careful R history)
    (hle : history' <+: history) : Careful R history' where
  made hroomy x hx := h.made hroomy x (hle.subset hx)
  reads hnulls before name elem hbefore := h.reads hnulls before name elem (hbefore.trans hle)
  refs hnulls before purpose array a hbefore :=
    h.refs hnulls before purpose array a (hbefore.trans hle)

theorem arrays_subset {c : Eval α} {a : α} {w' : World} [Runs True True c] (h : c w = .ok a w') :
    w.arrays ⊆ w'.arrays := by
  have hgrows := history_grows c w
  rw [h] at hgrows
  exact (hgrows.filterMap Event.made?).subset

/-- What was run before does not matter if it reported nothing. -/
theorem Lands.of_stderr {w₁ : World} {Q : α → World → Prop} {r : EStateM.Result Halt World α}
    (h : Lands R w₁ Q r) (hstderr : w₁.console.stderr = w.console.stderr) : Lands R w Q r := by
  cases h with
  | ok ha => exact .ok ha
  | error hhalts =>
      refine .error ⟨hhalts.logged, hhalts.messages, fun hwhy => ?_, hhalts.exhausted⟩
      obtain ⟨msg, hmsg, hreport⟩ := hhalts.reported hwhy
      refine ⟨msg, hmsg, ?_⟩
      rw [hreport, Host.Console.report, Host.Console.report, hstderr]

/-- A run may halt anywhere for a reason that is no trap. -/
theorem TypedHeap.halts {filled : Extent → Nat} {w' : World} {why : Halt}
    (h : TypedHeap R filled w') (hwhy : ∀ trap, why ≠ .trap trap) : Halts R w why w' where
  logged := h.logged
  messages := h.messages
  reported htrap := absurd htrap (hwhy _)
  exhausted _ htrap := absurd htrap (hwhy _)

/-! ## Rules -/

theorem Sound.mono {c : Eval α} {Q Q' : α → World → Prop} (h : Sound R c w Q)
    (hQ : ∀ a w', c w = .ok a w' → Q a w' → Q' a w') : Sound R c w Q' := by
  intro hcareful
  have hlands := h hcareful
  generalize c w = r at hlands hQ
  cases hlands with
  | ok ha => exact .ok (hQ _ _ rfl ha)
  | error hhalts => exact .error hhalts

theorem Sound.pure {a : α} {Q : α → World → Prop} (h : Q a w) : Sound R (pure a) w Q :=
  fun _ => .ok h

theorem Sound.throw {why : Halt} {Q : α → World → Prop} (h : Halts R w why w) :
    Sound R (throw why) w Q :=
  fun _ => .error h

theorem Sound.bind {x : Eval α} {f : α → Eval β} {P : α → World → Prop} {Q : β → World → Prop}
    [hruns : Runs True True x] [∀ a, Runs True True (f a)] (hx : Sound R x w P)
    (hf : ∀ a w', x w = .ok a w' → P a w' → Sound R (f a) w' Q) : Sound R (x >>= f) w Q := by
  intro hcareful
  have hlands := hx (hcareful.of_prefix (history_grows_bind x w))
  rw [run_bind] at hcareful ⊢
  cases hrun : x w with
  | ok a w' =>
      rw [hrun] at hcareful hlands
      have hstderr := hruns.stderr_eq w (by simp [hrun])
      rw [hrun] at hstderr
      cases hlands with
      | ok ha => exact (hf a w' hrun ha hcareful).of_stderr hstderr
  | error why w' =>
      rw [hrun] at hlands
      cases hlands with
      | error hhalts => exact .error hhalts

theorem Sound.ifElse {p : Prop} [Decidable p] {x y : Eval α} {Q : α → World → Prop}
    (hx : p → Sound R x w Q) (hy : ¬p → Sound R y w Q) : Sound R (if p then x else y) w Q := by
  by_cases hp : p
  · rw [if_pos hp]
    exact hx hp
  · rw [if_neg hp]
    exact hy hp

end

/-! ## Steps -/

section

variable {R : Regime} {filled : Extent → Nat} {w : World} {x : Extent}

/-- An access to an array through its reference. -/
theorem TypedHeap.access (h : TypedHeap R filled w) (hx : x ∈ w.arrays) {a : Access}
    (htouched : x.Touched a) (purpose : Purpose) :
    TypedHeap R filled (w.note (.access purpose x.address a)) := by
  have hstart := (h.tiled.of_mem hx).1
  refine h.note rfl (by simp) (h.logged.concat ?_)
  rintro _ _ _ ⟨rfl, rfl, rfl⟩ -
  refine ⟨?_, ⟨x, hx, rfl, htouched⟩, ?_⟩
  · intro hzero
    rw [hzero] at hstart
    exact absurd hstart (by decide)
  · cases a with
    | load => trivial
    | store ty address =>
        rcases htouched with hload | ⟨i, hi, hty, haddress⟩
        · exact absurd hload (by simp)
        · change ty = cellType x.elem at hty
          change address.toNat = x.cell i at haddress
          have hcell := x.header_le_cell i
          refine ⟨by omega, fun y hy => ?_⟩
          rw [hty, size_cellType (h.kept x hx).isValue, haddress]
          exact h.tiled.cell_apart_header hx hy hi

/-- A careful access goes through a reference to an array. -/
theorem TypedHeap.exists_array (h : TypedHeap R filled w) {elem : Ty} {value : UInt64}
    (hvalue : Proper R.nulls w.arrays (.array elem) value) {purpose : Purpose} {a : Access}
    (hpurpose : purpose ≠ .make)
    (hcareful : Careful R (w.history ++ [.access purpose value.toUInt32 a])) :
    ∃ x ∈ w.arrays, x.elem = elem ∧ value = x.address.toUInt64 := by
  rcases hvalue with ⟨hnulls, rfl⟩ | hexists
  · rcases hcareful.refs hnulls w.history purpose _ a List.prefix_rfl hpurpose with hne | hmade
    · exact absurd rfl hne
    · obtain ⟨x, hx, haddress⟩ := hmade
      have hstart := (h.tiled.of_mem hx).1
      rw [haddress] at hstart
      exact absurd hstart (by decide)
  · exact hexists

theorem sound_readVar {name : String} {ty : Ty} (h : TypedHeap R filled w)
    (hfind : R.env.find? name = some ty) :
    Sound R (readVar name) w fun v w' =>
      TypedHeap R filled w' ∧ Proper R.nulls w'.arrays ty v := by
  intro hcareful
  rw [run_readVar] at hcareful ⊢
  have hnote : TypedHeap R filled (w.note (.read name)) :=
    h.note rfl (by simp) (h.logged.concat (by simp))
  refine .ok ⟨hnote, ?_⟩
  by_cases hassigned : .assign name ∈ w.history
  · exact hnote.vars name ty hfind (by simp [hassigned])
  · rw [h.unset name hassigned]
    refine proper_zero ?_
    by_cases hnulls : R.nulls
    · exact Or.inl hnulls
    · refine Or.inr fun elem hty => hassigned ?_
      exact hcareful.reads hnulls w.history name elem List.prefix_rfl (hty ▸ hfind)

theorem sound_assignVar {name : String} {ty : Ty} {value : UInt64} (h : TypedHeap R filled w)
    (hfind : R.env.find? name = some ty) (hvalue : Proper R.nulls w.arrays ty value) :
    Sound R (assignVar name value) w fun _ w' => TypedHeap R filled w' := by
  intro _
  rw [run_assignVar]
  refine .ok (h.assign fun ty' hfind' => ?_)
  obtain rfl : ty = ty' := Option.some.inj (hfind.symm.trans hfind')
  exact hvalue

theorem sound_choice (h : TypedHeap R filled w) (op : BinaryOp) (right : Expr) (left : UInt64) :
    Sound R (note (.choice op right left)) w fun _ w' => TypedHeap R filled w' :=
  fun _ => .ok (h.note rfl (by simp) (h.logged.concat (by simp)))

theorem sound_tick (h : TypedHeap R filled w) :
    Sound R tick w fun _ w' =>
      TypedHeap R filled w' ∧ w'.arrays = w.arrays ∧ w'.frontier = w.frontier := by
  intro _
  rw [run_tick]
  split
  · exact .error (h.halts (by simp))
  · exact .ok ⟨h.fuel _, rfl, rfl⟩

theorem sound_report (h : TypedHeap R filled w) {msg : Message}
    (hmsg : msg ∈ [R.target.capacity, R.target.index]) (Q : Unit → World → Prop) :
    Sound R (report msg) w Q := by
  intro _
  rw [run_report]
  dsimp only
  split
  · exact .error (h.halts (by simp))
  · exact .error ⟨h.logged, h.messages, fun _ => ⟨msg, hmsg, rfl⟩, by simp⟩

theorem sound_require (h : TypedHeap R filled w) (ok : Bool) {msg : Message}
    (hmsg : msg ∈ [R.target.capacity, R.target.index]) :
    Sound R (require ok msg) w fun _ w' => ok = true ∧ w' = w := by
  cases ok with
  | true => exact fun _ => .ok ⟨rfl, rfl⟩
  | false => exact sound_report h hmsg _

theorem sound_print (h : TypedHeap R filled w) (ty : Ty) (value : UInt64) :
    Sound R (print ty value) w fun _ w' => TypedHeap R filled w' :=
  fun _ => .ok (h.console _)

theorem sound_input (h : TypedHeap R filled w) :
    Sound R input w fun _ w' => TypedHeap R filled w' := by
  intro _
  rcases hread : w.console.input.readInt with ⟨answer, rest⟩
  cases answer with
  | ok value =>
      rw [run_input_ok w hread]
      exact .ok (h.console _)
  | error e =>
      rw [run_input_error w hread]
      exact .error ((h.console _).halts (by simp))

/-! ## Existing arrays -/

/-- Memory has room for all arrays. -/
theorem TypedHeap.inBounds_of_touched (h : TypedHeap R Extent.count w) (hx : x ∈ w.arrays)
    {a : Access} (htouched : x.Touched a) : inBounds w.memory a.ty a.address = true := by
  have hkept := h.kept x hx
  have hroom : x.stop ≤ w.memory.size := x.cell_count ▸ hkept.room
  apply decide_eq_true
  rcases htouched with rfl | ⟨i, hi, hty, haddress⟩
  · exact Nat.le_trans x.header_le_stop hroom
  · rw [hty, haddress, size_cellType hkept.isValue]
    exact Nat.le_trans (x.cell_lt_stop hi) hroom

theorem sound_load {ty : ValType} {address : UInt32} (h : TypedHeap R Extent.count w)
    (hx : x ∈ w.arrays) (htouched : x.Touched (.load ty address)) (purpose : Purpose) :
    Sound R (load purpose x.address ty address) w fun v w' =>
      TypedHeap R Extent.count w' ∧ x ∈ w'.arrays ∧ v = w.memory.word ty address.toNat := by
  intro _
  have hnote := h.access hx htouched purpose
  have hx' : x ∈ (w.note (.access purpose x.address (.load ty address))).arrays := by
    rw [World.arrays_note]
    exact List.mem_append_left _ hx
  have hbounds : inBounds w.memory ty address = true := h.inBounds_of_touched hx htouched
  rw [run_load, if_pos hbounds]
  exact .ok ⟨hnote, hx', rfl⟩

theorem sound_lengthAt {purpose : Purpose} {elem : Ty} {array : UInt64}
    (h : TypedHeap R Extent.count w) (hpurpose : purpose ≠ .make)
    (harray : Proper R.nulls w.arrays (.array elem) array) :
    Sound R (lengthAt purpose array) w fun n w' =>
      TypedHeap R Extent.count w' ∧
        ∃ x ∈ w'.arrays, x.elem = elem ∧ array = x.address.toUInt64 ∧ n = x.length := by
  intro hcareful
  have hload : w.history ++ [.access purpose array.toUInt32 (.load .i32 array.toUInt32)] <+:
      (endWorld (load purpose array.toUInt32 .i32 array.toUInt32 w)).history := by
    rw [run_load]
    split <;> exact List.prefix_rfl
  obtain ⟨x, hx, helem, rfl⟩ := h.exists_array harray hpurpose
    (hcareful.of_prefix (hload.trans (history_grows_bind _ w)))
  revert hcareful
  rw [lengthAt, UInt32.toUInt32_toUInt64]
  refine Sound.bind (sound_load h hx (Or.inl rfl) purpose) fun v w' _ ⟨h', hx', hv⟩ => ?_
  subst hv
  exact Sound.pure ⟨h', x, hx', helem, rfl, (h.kept x hx).decodeHeader_eq⟩

/-- A signed number that is not negative is the same number without a sign. -/
theorem toNat_eq_toInt {value : UInt64} (h : 0 ≤ value.toInt64.toInt) :
    (value.toNat : Int) = value.toInt64.toInt := by
  have hbits : value.toInt64.toInt = value.toBitVec.toInt := rfl
  have hnat : value.toBitVec.toNat = value.toNat := rfl
  have hlt := value.toNat_lt
  rw [hbits, BitVec.toInt_eq_toNat_cond, hnat] at h ⊢
  split at h <;> split <;> omega

theorem width_eq (elem : Ty) : Layout.width elem = 4 ∨ Layout.width elem = 8 := by
  unfold Layout.width
  split
  · exact Or.inr rfl
  · exact Or.inl rfl

/-- The address of an element as a number, also if the sum wraps. -/
theorem toNat_elementAt_eq_mod (elem : Ty) (array index : UInt64) :
    (elementAt elem array index).toNat =
      (array.toUInt32.toNat + Layout.headerSize + index.toNat * Layout.width elem) %
        UInt32.size := by
  rw [elementAt, UInt32.toNat_add, UInt32.toNat_add, UInt32.toNat_mul, UInt64.toNat_toUInt32 index]
  rcases width_eq elem with hwidth | hwidth
  all_goals
    rw [hwidth]
    simp only [Layout.headerSize, UInt32.size, UInt32.toNat_ofNat']
    omega

theorem toNat_elementAt {x : Extent} {index : UInt64} (hstop : x.stop < UInt32.size)
    (hindex : index.toNat < x.count) :
    (elementAt x.elem x.address.toUInt64 index).toNat = x.cell index.toNat := by
  have hcell := x.cell_lt_stop hindex
  rw [toNat_elementAt_eq_mod, UInt32.toUInt32_toUInt64, ← Extent.cell]
  exact Nat.mod_eq_of_lt (by omega)

/-- An address is that of an element of the array at a reference. -/
def IsCell (arrays : List Extent) (elem : Ty) (array : UInt64) (address : UInt32) : Prop :=
  ∃ x ∈ arrays, x.elem = elem ∧ array = x.address.toUInt64 ∧
    ∃ i < x.count, address.toNat = x.cell i

theorem IsCell.mono {arrays arrays' : List Extent} {elem : Ty} {array : UInt64} {address : UInt32}
    (h : IsCell arrays elem array address) (hsub : arrays ⊆ arrays') :
    IsCell arrays' elem array address := by
  obtain ⟨x, hx, hrest⟩ := h
  exact ⟨x, hsub hx, hrest⟩

theorem sound_locate {purpose : Purpose} {elem : Ty} {array index : UInt64}
    (h : TypedHeap R Extent.count w) (hpurpose : purpose ≠ .make)
    (harray : Proper R.nulls w.arrays (.array elem) array) :
    Sound R (locate R.target purpose elem array index) w fun address w' =>
      TypedHeap R Extent.count w' ∧ IsCell w'.arrays elem array address := by
  simp only [locate, checkIndex, bind_assoc]
  refine Sound.bind (sound_require h _ (by simp)) ?_
  rintro - _ - ⟨hnonneg, rfl⟩
  refine Sound.bind (sound_lengthAt h hpurpose harray) ?_
  rintro n w₁ - ⟨h₁, x, hx, helem, rfl, rfl⟩
  refine Sound.bind (sound_require h₁ _ (by simp)) ?_
  rintro - _ - ⟨hlt, rfl⟩
  have hindex := toNat_eq_toInt (of_decide_eq_true hnonneg)
  have hcount : index.toNat < x.count := by
    have := of_decide_eq_true hlt
    rw [Extent.count]
    omega
  refine Sound.pure ⟨h₁, x, hx, helem, rfl, index.toNat, hcount, ?_⟩
  rw [← helem]
  exact toNat_elementAt (h₁.kept x hx).stop_lt hcount

theorem sound_readElem {elem : Ty} {array index : UInt64} (h : TypedHeap R Extent.count w)
    (harray : Proper R.nulls w.arrays (.array elem) array) :
    Sound R (readElem R.target elem array index) w fun v w' =>
      TypedHeap R Extent.count w' ∧ Proper R.nulls w'.arrays elem v := by
  rw [readElem]
  refine Sound.bind (sound_locate h (by simp) harray) ?_
  rintro address w₁ - ⟨h₁, x, hx, rfl, rfl, i, hi, haddress⟩
  rw [UInt32.toUInt32_toUInt64]
  refine (sound_load h₁ hx (Or.inr ⟨i, hi, rfl, haddress⟩) .read).mono ?_
  rintro v w₂ hrun ⟨h₂, -, rfl⟩
  rw [haddress]
  exact ⟨h₂, ((h₁.kept x hx).elems i hi).mono (arrays_subset hrun)⟩

/-- Store a value in an element of an array. -/
theorem sound_store {elem : Ty} {array value : UInt64} {address : UInt32}
    (h : TypedHeap R Extent.count w) (hcell : IsCell w.arrays elem array address)
    (hvalue : Proper R.nulls w.arrays elem value) :
    Sound R (store .write array.toUInt32 (cellType elem) address value) w fun _ w' =>
      TypedHeap R Extent.count w' := by
  obtain ⟨x, hx, rfl, rfl, i, hi, haddress⟩ := hcell
  intro _
  have htouched : x.Touched (.store (cellType x.elem) address) := Or.inr ⟨i, hi, rfl, haddress⟩
  have hnote := h.access hx htouched .write
  have hbounds : inBounds w.memory (cellType x.elem) address = true :=
    h.inBounds_of_touched hx htouched
  have hx' : x ∈ (w.note (.access .write x.address
      (.store (cellType x.elem) address))).arrays := by
    rw [World.arrays_note]
    exact List.mem_append_left _ hx
  have hkept := hnote.kept x hx'
  have hvalue' := hvalue.mono (arrays_subset
    (run_note w (.access .write x.address (.store (cellType x.elem) address))))
  have hset := hnote.setElem hx' hvalue' hi
    (Nat.le_trans (x.cell_lt_stop hi) (x.cell_count ▸ hkept.room)) le_rfl hkept.room
    (fun j hj => Or.inl hj) fun _ _ => rfl
  rw [← haddress] at hset
  rw [UInt32.toUInt32_toUInt64, run_store, if_pos hbounds]
  exact .ok hset

end

end ArrayLang.Reference
