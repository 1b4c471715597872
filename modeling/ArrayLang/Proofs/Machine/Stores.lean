import ArrayLang.Proofs.Machine.Words

/-!
# Stores and loads

A store changes the bytes of its own range and nothing else, or it traps and nothing changes.  The
bytes that it writes are the digits of the value to the base 256, the lowest one first.  A load
reads the bytes of its range only, so a store outside this range makes no difference to it.
-/

namespace ArrayLang.Machine

open Code

variable {H : Type} {ty ty' : ValType} {address other : UInt32} {value : UInt64} {s s' : State H}

/-- A byte belongs to the value of a type at an address. -/
def Covers (ty : ValType) (address : UInt32) (a : Nat) : Prop :=
  address.toNat ≤ a ∧ a < address.toNat + ty.size

/-- What a load gives: a word on top of the stack, or the reason why it halts. -/
def Loads (ty : ValType) (address : UInt32) (s : State H) : Except Halt UInt64 → Prop
  | .ok word => loadValue ty address s = .next (s.push word)
  | .error why => loadValue ty address s = .halt why s

/-! ## Values in memory -/

theorem byte_setWord_of_outside (m : Memory) {a : Nat} (ha : ¬Covers ty address a) :
    (m.setWord ty address.toNat value).byte a = m.byte a := by
  apply Memory.byte_write_of_outside
  rw [Memory.length_bytesOfWord]
  rw [Covers] at ha
  omega

/-- A value is cut to the bits of its type. -/
theorem narrow_eq_mod (hty : ty = .i32 ∨ ty = .i64) :
    narrow ty value = UInt64.ofNat (value.toNat % 2 ^ (8 * ty.size)) := by
  apply UInt64.toNat_inj.mp
  rw [UInt64.toNat_ofNat']
  rcases hty with rfl | rfl
  · simp only [narrow, ValType.size, if_true, UInt32.toNat_toUInt64, UInt64.toNat_toUInt32]
    omega
  · have hlt := value.toNat_lt
    simp only [narrow, ValType.size, reduceCtorEq, if_false]
    omega

/-! ## Loads -/

theorem inBounds_iff {m : Memory} :
    inBounds m ty address = true ↔ address.toNat + ty.size ≤ m.size :=
  decide_eq_true_iff

theorem loadValue_of_room (hty : ty = .i32 ∨ ty = .i64)
    (hroom : address.toNat + ty.size ≤ s.memory.size) :
    loadValue ty address s = .next (s.push (s.memory.word ty address.toNat)) := by
  have hsize : ty.size ≠ 0 := by
    rcases hty with rfl | rfl <;> decide
  rw [loadValue, if_pos (inBounds_iff.mpr hroom), if_neg hsize]
  rfl

/-- The result of a load depends on the bytes of its range and the size of the memory. -/
theorem exists_loads_of_agree (hsize : s'.memory.size = s.memory.size)
    (hbytes : ∀ a, Covers ty address a → s'.memory.byte a = s.memory.byte a) :
    ∃ result, Loads ty address s result ∧ Loads ty address s' result := by
  have hread : s'.memory.read address.toNat ty.size = s.memory.read address.toNat ty.size := by
    refine List.map_congr_left fun i hi => hbytes _ ?_
    have hlt := List.mem_range.mp hi
    exact ⟨Nat.le_add_right _ _, Nat.add_lt_add_left hlt _⟩
  have hbounds : inBounds s'.memory ty address = inBounds s.memory ty address := by
    rw [inBounds, inBounds, hsize]
  by_cases hroom : inBounds s.memory ty address = true
  · by_cases hempty : ty.size = 0
    · refine ⟨.error (.fault (.unsupportedLoad ty)), ?_, ?_⟩
      · rw [Loads, loadValue, if_pos hroom, if_pos hempty]
      · rw [Loads, loadValue, hbounds, if_pos hroom, if_pos hempty]
    · refine ⟨.ok (s.memory.word ty address.toNat), ?_, ?_⟩
      · rw [Loads, loadValue, if_pos hroom, if_neg hempty, Memory.word]
      · rw [Loads, loadValue, hbounds, if_pos hroom, if_neg hempty, hread, Memory.word]
  · refine ⟨.error (.trap (.outOfBounds address)), ?_, ?_⟩
    · rw [Loads, loadValue, if_neg hroom]
    · rw [Loads, loadValue, hbounds, if_neg hroom]

/-! ## Stores -/

theorem storeValue_of_room (hty : ty = .i32 ∨ ty = .i64)
    (hroom : address.toNat + ty.size ≤ s.memory.size) :
    storeValue ty address value s =
      .next { s with memory := s.memory.setWord ty address.toNat value } := by
  have hsize : ty.size ≠ 0 := by
    rcases hty with rfl | rfl <;> decide
  rw [storeValue, if_pos (inBounds_iff.mpr hroom), if_neg hsize]
  rfl

theorem storeValue_of_no_room (h : s.memory.size < address.toNat + ty.size) :
    storeValue ty address value s = .halt (.trap (.outOfBounds address)) s := by
  rw [storeValue, if_neg (mt inBounds_iff.mp (Nat.not_le.mpr h))]

/-- On the way from one state to another a value was stored, and nothing else changed. -/
structure Stored (ty : ValType) (address : UInt32) (value : UInt64) (s s' : State H) : Prop where
  frame : s' = { s with memory := s'.memory }
  size : s'.memory.size = s.memory.size
  digits : ∀ i < ty.size,
    s'.memory.byte (address.toNat + i) = UInt8.ofNat (value.toNat / 256 ^ i)
  outside : ∀ a, ¬Covers ty address a → s'.memory.byte a = s.memory.byte a
  load_same :
    loadValue ty address s' = .next (s'.push (UInt64.ofNat (value.toNat % 2 ^ (8 * ty.size))))
  load_apart : ∀ ty' other, (∀ a, Covers ty' other a → ¬Covers ty address a) →
    ∃ result, Loads ty' other s result ∧ Loads ty' other s' result

theorem stored_setWord (hty : ty = .i32 ∨ ty = .i64)
    (hroom : address.toNat + ty.size ≤ s.memory.size) :
    Stored ty address value s { s with memory := s.memory.setWord ty address.toNat value } := by
  have hsize : (s.memory.setWord ty address.toNat value).size = s.memory.size :=
    Memory.size_setWord s.memory value
  have houtside (a : Nat) (ha : ¬Covers ty address a) :
      (s.memory.setWord ty address.toNat value).byte a = s.memory.byte a :=
    byte_setWord_of_outside s.memory ha
  refine ⟨rfl, hsize, fun i hi => s.memory.byte_setWord value hi hroom, houtside, ?_, ?_⟩
  · rw [loadValue_of_room hty (by rwa [hsize]), Memory.word_setWord_self s.memory value hty hroom,
      narrow_eq_mod hty]
  · intro ty' other hapart
    exact exists_loads_of_agree hsize fun a ha => houtside a (hapart a ha)

/-- A store succeeds exactly if the range of the value lies in memory, where the end of the range is
no sum of 32 bits.  It then writes the value and nothing else; otherwise it traps and nothing
changes. -/
theorem store_writes_own_cells (ty : ValType) (hty : ty = .i32 ∨ ty = .i64) (address : UInt32)
    (value : UInt64) (s : State H) :
    ((∃ s', storeValue ty address value s = .next s') ↔
        address.toNat + ty.size ≤ s.memory.size) ∧
      (∀ s', storeValue ty address value s = .next s' → Stored ty address value s s') ∧
      (s.memory.size < address.toNat + ty.size →
        storeValue ty address value s = .halt (.trap (.outOfBounds address)) s) := by
  refine ⟨⟨?_, fun hroom => ⟨_, storeValue_of_room hty hroom⟩⟩, ?_, storeValue_of_no_room⟩
  · rintro ⟨s', hstore⟩
    by_contra hroom
    rw [storeValue_of_no_room (Nat.not_le.mp hroom)] at hstore
    cases hstore
  · intro s' hstore
    by_cases hroom : address.toNat + ty.size ≤ s.memory.size
    · rw [storeValue_of_room hty hroom] at hstore
      cases hstore
      exact stored_setWord hty hroom
    · rw [storeValue_of_no_room (Nat.not_le.mp hroom)] at hstore
      cases hstore

/-- A word in the last eight bytes of a memory; one byte further on, and where the end of the range
would wrap, there is no room. -/
theorem last_word_store_writes_own_cells :
    let s : State Unit := ⟨.zeros 16, [], [], [7], (), 4⟩
    (∃ s', storeValue .i64 8 0x8000000000000001 s = .next s' ∧
        Stored .i64 8 0x8000000000000001 s s') ∧
      storeValue .i64 9 0x8000000000000001 s = .halt (.trap (.outOfBounds 9)) s ∧
      storeValue .i32 0xfffffffe 1 s = .halt (.trap (.outOfBounds 0xfffffffe)) s := by
  intro s
  obtain ⟨hroom, hstored, -⟩ :=
    store_writes_own_cells .i64 (Or.inr rfl) 8 0x8000000000000001 s
  obtain ⟨s', hstore⟩ := hroom.mpr (by decide)
  refine ⟨⟨s', hstore, hstored s' hstore⟩, ?_, ?_⟩
  · exact (store_writes_own_cells .i64 (Or.inr rfl) 9 0x8000000000000001 s).2.2 (by decide)
  · exact (store_writes_own_cells .i32 (Or.inl rfl) 0xfffffffe 1 s).2.2 (by decide)

end ArrayLang.Machine
