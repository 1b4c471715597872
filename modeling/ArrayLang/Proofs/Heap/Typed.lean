import ArrayLang.Assembly
import ArrayLang.Proofs.Emit.Headers
import ArrayLang.Proofs.Heap.Extents

/-!
# The typed heap

As long as no reference leads astray, memory holds the messages and behind them the arrays that were
made, and nothing else up to the frontier.  Headers and elements are as their types say.

References may be allowed to be 0, which is the value of a variable before its first assignment.  Then
no access must go through such a reference.
-/

namespace ArrayLang.Reference

open Source Code Machine Emit Typing

/-- What statements about the heap depend on. -/
structure Regime where
  /-- A reference may be 0. -/
  nulls : Prop
  /-- The types of the variables. -/
  env : Env
  target : Target
  /-- The number of bytes of the memory. -/
  size : Nat

/-! ## Values and accesses -/

/-- A word is a value of a type.  A reference is the address of an array that was made. -/
def Proper (nulls : Prop) (arrays : List Extent) (ty : Ty) (value : UInt64) : Prop :=
  match ty with
  | .bool => value = 0 ∨ value = 1
  | .array elem => nulls ∧ value = 0 ∨ ∃ x ∈ arrays, x.elem = elem ∧ value = x.address.toUInt64
  | _ => True

/-- An access on behalf of a reference goes to the array there, and it is one of the arrays. -/
def Allowed (arrays : List Extent) (array : UInt32) (a : Access) : Prop :=
  ∃ x ∈ arrays, x.address = array ∧ x.Touched a

/-- An access leaves the messages and the headers as they are. -/
def Harmless (arrays : List Extent) : Access → Prop
  | .load _ _ => True
  | .store ty address =>
    Assembly.heapStart ≤ address.toNat ∧
      ∀ x ∈ arrays, address.toNat + ty.size ≤ x.address.toNat ∨
        x.address.toNat + Layout.headerSize ≤ address.toNat

/-- The arrays that were made in a history. -/
def madeIn (history : List Event) : List Extent := history.filterMap Event.made?

/-- All accesses of a history but those that make arrays go through references to arrays that were
made before, touch only these, and are harmless. -/
def Logged (history : List Event) : Prop :=
  ∀ before purpose array a, before ++ [.access purpose array a] <+: history → purpose ≠ .make →
    array ≠ 0 ∧ Allowed (madeIn before) array a ∧ Harmless (madeIn before) a

section

variable {nulls : Prop} {arrays arrays' : List Extent} {ty : Ty} {value : UInt64}

theorem Proper.mono (h : Proper nulls arrays ty value) (hsub : arrays ⊆ arrays') :
    Proper nulls arrays' ty value := by
  unfold Proper at h ⊢
  split
  · exact h
  · rcases h with hnull | ⟨x, hx, helem, hvalue⟩
    · exact Or.inl hnull
    · exact Or.inr ⟨x, hsub hx, helem, hvalue⟩
  · trivial

theorem proper_ofBool (b : Bool) : Proper nulls arrays .bool (ofBool b) := by
  cases b with
  | false => exact Or.inl rfl
  | true => exact Or.inr rfl

/-- A value fits into its place in memory. -/
theorem Proper.narrow_eq (h : Proper nulls arrays ty value) (hty : IsValue ty) :
    narrow (cellType ty) value = value := by
  cases hty with
  | int => rfl
  | bool =>
      rcases h with rfl | rfl <;> rfl
  | array =>
      rcases h with ⟨-, rfl⟩ | ⟨x, -, -, rfl⟩
      · rfl
      · simp [narrow, cellType, Layout.valType?]

/-- A variable that was not assigned to holds a value, if references may be 0. -/
theorem proper_zero (h : nulls ∨ ∀ elem, ty ≠ .array elem) : Proper nulls arrays ty 0 := by
  unfold Proper
  split
  · exact Or.inl rfl
  · rcases h with hnulls | hty
    · exact Or.inl ⟨hnulls, rfl⟩
    · exact absurd rfl (hty _)
  · trivial

theorem logged_nil : Logged [] := by
  intro before purpose array a hbefore
  exact absurd (List.prefix_nil.mp hbefore) (by simp)

theorem Logged.concat {history : List Event} {e : Event} (h : Logged history)
    (he : ∀ purpose array a, e = .access purpose array a → purpose ≠ .make →
      array ≠ 0 ∧ Allowed (madeIn history) array a ∧ Harmless (madeIn history) a) :
    Logged (history ++ [e]) := by
  intro before purpose array a hbefore hpurpose
  rcases List.prefix_concat_iff.mp hbefore with heq | hprefix
  · obtain ⟨rfl, hlast⟩ := List.append_inj' heq rfl
    exact he purpose array a (List.singleton_inj.mp hlast).symm hpurpose
  · exact h before purpose array a hprefix hpurpose

end

/-! ## Arrays in memory -/

/-- Memory holds an array, of which the first `filled` elements are set. -/
structure Extent.Kept (nulls : Prop) (arrays : List Extent) (m : Memory) (filled : Nat)
    (x : Extent) : Prop where
  isValue : IsValue x.elem
  count_le : x.count ≤ Layout.maxLength
  stop_lt : x.stop < UInt32.size
  filled_le : filled ≤ x.count
  room : x.cell filled ≤ m.size
  header : m.word .i32 x.address.toNat =
    (Layout.encodeHeader x.length (Layout.ElemKind.ofTy x.elem).code).toUInt64
  elems : ∀ i < filled, Proper nulls arrays x.elem (m.word (cellType x.elem) (x.cell i))

section

variable {nulls : Prop} {arrays arrays' : List Extent} {m : Memory} {filled : Nat} {x : Extent}

theorem Extent.Kept.mono (h : x.Kept nulls arrays m filled) (hsub : arrays ⊆ arrays') :
    x.Kept nulls arrays' m filled :=
  ⟨h.isValue, h.count_le, h.stop_lt, h.filled_le, h.room, h.header,
    fun i hi => (h.elems i hi).mono hsub⟩

/-- A word outside an array is changed. -/
theorem Extent.Kept.setWord {ty : ValType} {address : Nat} (h : x.Kept nulls arrays m filled)
    (hapart : address + ty.size ≤ x.address.toNat ∨ x.stop ≤ address) (value : UInt64) :
    x.Kept nulls arrays (m.setWord ty address value) filled := by
  have hheader := x.header_le_stop
  refine ⟨h.isValue, h.count_le, h.stop_lt, h.filled_le, ?_, ?_, fun i hi => ?_⟩
  · rw [Memory.size_setWord]
    exact h.room
  · rw [Memory.word_setWord_of_disjoint, h.header]
    rcases hapart with hle | hle
    · exact Or.inr hle
    · exact Or.inl (Nat.le_trans hheader hle)
  · have hstop := x.cell_lt_stop (Nat.lt_of_lt_of_le hi h.filled_le)
    have hcell := x.header_le_cell i
    rw [Memory.word_setWord_of_disjoint]
    · exact h.elems i hi
    · rw [size_cellType h.isValue]
      omega

/-- An element is set to a value. -/
theorem Extent.Kept.setElem {filled' i : Nat} {value : UInt64} (h : x.Kept nulls arrays m filled)
    (hvalue : Proper nulls arrays x.elem value) (hi : i < x.count)
    (hsize : x.cell i + Layout.width x.elem ≤ m.size) (hle : filled' ≤ x.count)
    (hroom : x.cell filled' ≤ m.size) (hset : ∀ j < filled', j < filled ∨ j = i) :
    x.Kept nulls arrays (m.setWord (cellType x.elem) (x.cell i) value) filled' := by
  refine ⟨h.isValue, h.count_le, h.stop_lt, hle, ?_, ?_, fun j hj => ?_⟩
  · rwa [Memory.size_setWord]
  · rw [Memory.word_setWord_of_disjoint, h.header]
    exact Or.inl (x.header_le_cell i)
  · by_cases hij : j = i
    · subst hij
      rw [Memory.word_setWord_self _ _ (cellType_eq h.isValue)
        (by rwa [size_cellType h.isValue]), hvalue.narrow_eq h.isValue]
      exact hvalue
    · have hold := h.elems j ((hset j hj).resolve_right hij)
      rw [Memory.word_setWord_of_disjoint]
      · exact hold
      · rw [size_cellType h.isValue]
        rcases Nat.lt_or_gt_of_ne hij with hlt | hgt
        · exact Or.inl (x.cell_add_le hlt)
        · exact Or.inr (x.cell_add_le hgt)

/-- The length is read from the header. -/
theorem Extent.Kept.decodeHeader_eq (h : x.Kept nulls arrays m filled) :
    (Layout.decodeHeader (m.word .i32 x.address.toNat).toUInt32).1 = x.length := by
  rw [h.header, UInt32.toUInt32_toUInt64,
    Layout.decodeHeader_encodeHeader h.count_le (Layout.ElemKind.code_lt _)]

end

/-! ## Worlds -/

/-- The world is as the types say, where `filled` gives the number of elements of an array that are
set. -/
structure TypedHeap (R : Regime) (filled : Extent → Nat) (w : World) : Prop where
  size : w.memory.size = R.size
  base : Assembly.heapStart ≤ R.size
  messages : w.memory.read 0 Assembly.heapStart = Assembly.messageBytes
  tiled : Tiled Assembly.heapStart w.arrays w.frontier.toNat
  kept : ∀ x ∈ w.arrays, x.Kept R.nulls w.arrays w.memory (filled x)
  vars : ∀ name ty, R.env.find? name = some ty → .assign name ∈ w.history →
    Proper R.nulls w.arrays ty (w.vars name)
  unset : ∀ name, .assign name ∉ w.history → w.vars name = 0
  logged : Logged w.history

section

variable {R : Regime} {filled : Extent → Nat} {w : World} {x : Extent}

theorem World.arrays_note (w : World) (e : Event) :
    (w.note e).arrays = w.arrays ++ e.made?.toList := by
  cases h : e.made? <;> simp [World.arrays, World.note, h]

theorem TypedHeap.console (h : TypedHeap R filled w) (console : Host.Console) :
    TypedHeap R filled { w with console } :=
  ⟨h.size, h.base, h.messages, h.tiled, h.kept, h.vars, h.unset, h.logged⟩

theorem TypedHeap.fuel (h : TypedHeap R filled w) (fuel : Nat) :
    TypedHeap R filled { w with fuel } :=
  ⟨h.size, h.base, h.messages, h.tiled, h.kept, h.vars, h.unset, h.logged⟩

/-- An event that is no assignment and makes no array. -/
theorem TypedHeap.note (h : TypedHeap R filled w) {e : Event} (hmade : e.made? = none)
    (hassign : ∀ name, e ≠ .assign name) (hlogged : Logged (w.history ++ [e])) :
    TypedHeap R filled (w.note e) := by
  have harrays : (w.note e).arrays = w.arrays := by
    rw [World.arrays_note, hmade, Option.toList_none, List.append_nil]
  have hmem (name : String) : .assign name ∈ (w.note e).history ↔ .assign name ∈ w.history := by
    rw [World.history_note, List.mem_append, List.mem_singleton, eq_comm]
    exact or_iff_left (hassign name)
  refine ⟨h.size, h.base, h.messages, ?_, ?_, ?_, ?_, hlogged⟩
  · rw [harrays]
    exact h.tiled
  · rw [harrays]
    exact h.kept
  · intro name ty hfind hname
    rw [harrays]
    exact h.vars name ty hfind ((hmem name).mp hname)
  · exact fun name hname => h.unset name fun h => hname ((hmem name).mpr h)

theorem TypedHeap.assign (h : TypedHeap R filled w) {name : String} {value : UInt64}
    (hvalue : ∀ ty, R.env.find? name = some ty → Proper R.nulls w.arrays ty value) :
    TypedHeap R filled (w.assign name value) := by
  have harrays : (w.assign name value).arrays = w.arrays := by
    change (w.note (.assign name)).arrays = w.arrays
    rw [World.arrays_note]
    exact List.append_nil _
  have hhistory : (w.assign name value).history = w.history ++ [.assign name] := rfl
  refine ⟨h.size, h.base, h.messages, ?_, ?_, ?_, ?_, h.logged.concat (by simp)⟩
  · rw [harrays]
    exact h.tiled
  · rw [harrays]
    exact h.kept
  · intro other ty hfind hother
    rw [harrays, World.vars_assign]
    by_cases heq : other = name
    · subst heq
      rw [Function.update_self]
      exact hvalue ty hfind
    · rw [Function.update_of_ne heq]
      refine h.vars other ty hfind ?_
      simpa [hhistory, heq] using hother
  · intro other hother
    have hne : other ≠ name := by
      rintro rfl
      exact hother (by simp [hhistory])
    rw [World.vars_assign, Function.update_of_ne hne]
    exact h.unset other fun hmem => hother (by simp [hhistory, hmem])

/-- Memory is changed.  Each array must be looked at. -/
theorem TypedHeap.setWord (h : TypedHeap R filled w) {filled' : Extent → Nat} {ty : ValType}
    {address : Nat} {value : UInt64} (haddress : Assembly.heapStart ≤ address)
    (hkept : ∀ x ∈ w.arrays,
      x.Kept R.nulls w.arrays (w.memory.setWord ty address value) (filled' x)) :
    TypedHeap R filled' { w with memory := w.memory.setWord ty address value } := by
  refine ⟨?_, h.base, ?_, h.tiled, hkept, h.vars, h.unset, h.logged⟩
  · rw [Memory.size_setWord]
    exact h.size
  · rw [Memory.read_setWord_of_disjoint]
    · exact h.messages
    · exact Or.inl (by simpa using haddress)

/-- Memory behind the frontier is free. -/
theorem TypedHeap.setFree (h : TypedHeap R filled w) {ty : ValType} {address : Nat}
    (haddress : w.frontier.toNat ≤ address) (value : UInt64) :
    TypedHeap R filled { w with memory := w.memory.setWord ty address value } := by
  refine h.setWord (Nat.le_trans h.tiled.le haddress) fun x hx => ?_
  exact (h.kept x hx).setWord (Or.inr (Nat.le_trans (h.tiled.of_mem hx).2 haddress)) value

/-- An element is set to a value. -/
theorem TypedHeap.setElem (h : TypedHeap R filled w) {filled' : Extent → Nat} {i : Nat}
    {value : UInt64} (hx : x ∈ w.arrays) (hvalue : Proper R.nulls w.arrays x.elem value)
    (hi : i < x.count) (hsize : x.cell i + Layout.width x.elem ≤ w.memory.size)
    (hle : filled' x ≤ x.count) (hroom : x.cell (filled' x) ≤ w.memory.size)
    (hset : ∀ j < filled' x, j < filled x ∨ j = i) (hother : ∀ y, y ≠ x → filled' y = filled y) :
    TypedHeap R filled'
      { w with memory := w.memory.setWord (cellType x.elem) (x.cell i) value } := by
  have hcell := x.header_le_cell i
  have hstart := (h.tiled.of_mem hx).1
  have hstop := x.cell_lt_stop hi
  refine h.setWord (by omega) fun y hy => ?_
  by_cases heq : y = x
  · subst heq
    exact (h.kept y hy).setElem hvalue hi hsize hle hroom hset
  · rw [hother y heq]
    refine (h.kept y hy).setWord ?_ value
    rw [size_cellType (h.kept x hx).isValue]
    rcases h.tiled.apart hx hy (Ne.symm heq) with hapart | hapart
    · exact Or.inl (Nat.le_trans hstop hapart)
    · exact Or.inr (by omega)

/-- An array is made at the frontier, where its header is already. -/
theorem TypedHeap.made (h : TypedHeap R Extent.count w) {frontier : UInt32}
    (haddress : x.address = w.frontier) (hstop : x.stop = frontier.toNat)
    (hkept : x.Kept R.nulls w.arrays w.memory 0) :
    TypedHeap R (Function.update Extent.count x 0) { w.note (.made x) with frontier } := by
  have harrays : (w.note (.made x)).arrays = w.arrays ++ [x] := World.arrays_note w (.made x)
  have hsub : w.arrays ⊆ (w.note (.made x)).arrays := harrays ▸ List.subset_append_left _ _
  have hmem (name : String) : .assign name ∈ (w.note (.made x)).history ↔
      .assign name ∈ w.history := by simp
  refine ⟨h.size, h.base, h.messages, ?_, ?_, ?_, ?_, h.logged.concat (by simp)⟩
  · change Tiled _ (w.note (.made x)).arrays frontier.toNat
    rw [harrays, tiled_concat, haddress]
    exact ⟨h.tiled, hstop⟩
  · intro y hy
    have hy' : y ∈ w.arrays ++ [x] := harrays ▸ hy
    by_cases heq : y = x
    · subst heq
      rw [Function.update_self]
      exact hkept.mono hsub
    · rw [Function.update_of_ne heq]
      exact (h.kept y (by simpa [heq] using hy')).mono hsub
  · intro name ty hfind hname
    exact (h.vars name ty hfind ((hmem name).mp hname)).mono hsub
  · exact fun name hname => h.unset name fun h => hname ((hmem name).mpr h)

/-- An array is complete. -/
theorem TypedHeap.complete
    (h : TypedHeap R (Function.update Extent.count x x.count) w) : TypedHeap R Extent.count w := by
  rwa [Function.update_eq_self] at h

end

end ArrayLang.Reference
