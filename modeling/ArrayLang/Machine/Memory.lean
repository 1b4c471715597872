/-!
# Memory

A memory is a row of bytes, which start as zeros.  The bytes are the leaves of a binary tree that
has a level for each bit of an address and in which only the written parts are present.  Words are
stored with their low byte first.
-/

namespace ArrayLang.Machine

/-- A tree of bytes. -/
inductive Cells where
  /-- Zeros only. -/
  | zeros
  | byte (value : UInt8)
  /-- The cells whose address has the bit of this level cleared, and those that have it set. -/
  | fork (low high : Cells)
  deriving DecidableEq, Repr

namespace Cells

/-- The byte at an address of `depth` bits. -/
def get : (depth : Nat) → Cells → (address : Nat) → UInt8
  | 0, .byte value, _ => value
  | depth + 1, .fork low high, address =>
    if address.testBit depth then high.get depth address else low.get depth address
  | _, _, _ => 0

/-- Change the byte at an address of `depth` bits. -/
def set : (depth : Nat) → Cells → (address : Nat) → UInt8 → Cells
  | 0, _, _, value => .byte value
  | depth + 1, .fork low high, address, value =>
    if address.testBit depth then .fork low (high.set depth address value)
    else .fork (low.set depth address value) high
  | depth + 1, _, address, value =>
    if address.testBit depth then .fork .zeros (Cells.zeros.set depth address value)
    else .fork (Cells.zeros.set depth address value) .zeros

@[simp] theorem get_zeros (depth address : Nat) : Cells.zeros.get depth address = 0 := by
  cases depth <;> rfl

/-- A byte that was changed is read back, and bytes at addresses with other bits stay. -/
theorem get_set (depth : Nat) (t : Cells) (address other : Nat) (value : UInt8) :
    (t.set depth address value).get depth other =
      if ∀ i < depth, other.testBit i = address.testBit i then value else t.get depth other := by
  induction depth generalizing t with
  | zero => simp [set, get]
  | succ depth ih =>
    have hsplit : (∀ i < depth + 1, other.testBit i = address.testBit i) ↔
        (∀ i < depth, other.testBit i = address.testBit i) ∧
          other.testBit depth = address.testBit depth := by
      constructor
      · exact fun h => ⟨fun i hi => h i (by omega), h depth (by omega)⟩
      · rintro ⟨h, hd⟩ i hi
        by_cases heq : i = depth
        · exact heq ▸ hd
        · exact h i (by omega)
    simp only [hsplit]
    cases t <;> cases ha : address.testBit depth <;> cases ho : other.testBit depth <;>
      simp [set, get, ha, ho, ih]

end Cells

/-- A memory of `size` bytes, whose addresses have at most `depth` bits. -/
structure Memory where
  size : Nat
  depth : Nat
  size_le : size ≤ 1 <<< depth
  cells : Cells

namespace Memory

/-- A memory of zeros. -/
def zeros (size : Nat) : Memory :=
  ⟨size, size.log2 + 1, by rw [Nat.one_shiftLeft]; exact Nat.le_of_lt Nat.lt_log2_self, .zeros⟩

/-- The byte at an address; outside the memory there are zeros. -/
def byte (m : Memory) (address : Nat) : UInt8 :=
  if address < m.size then m.cells.get m.depth address else 0

/-- Change the byte at an address; outside the memory nothing changes. -/
def setByte (m : Memory) (address : Nat) (value : UInt8) : Memory :=
  if address < m.size then { m with cells := m.cells.set m.depth address value } else m

/-- The bytes from an address on. -/
def read (m : Memory) (address count : Nat) : List UInt8 :=
  (List.range count).map fun i => m.byte (address + i)

/-- Change the bytes from an address on. -/
def write (m : Memory) (address : Nat) : List UInt8 → Memory
  | [] => m
  | b :: rest => (m.setByte address b).write (address + 1) rest

/-- The word with the given bytes, low byte first. -/
def wordOfBytes : List UInt8 → UInt64
  | [] => 0
  | b :: rest => b.toUInt64 + 256 * wordOfBytes rest

/-- The low bytes of a word, low byte first. -/
def bytesOfWord : (count : Nat) → UInt64 → List UInt8
  | 0, _ => []
  | count + 1, word => word.toUInt8 :: bytesOfWord count (word >>> 8)

@[simp] theorem size_setByte (m : Memory) (address : Nat) (value : UInt8) :
    (m.setByte address value).size = m.size := by
  unfold setByte
  split <;> rfl

@[simp] theorem size_write (m : Memory) (address : Nat) (bytes : List UInt8) :
    (m.write address bytes).size = m.size := by
  induction bytes generalizing m address with
  | nil => rfl
  | cons b rest ih => simp [write, ih]

@[simp] theorem length_read (m : Memory) (address count : Nat) :
    (m.read address count).length = count := by
  simp [read]

/-- Two addresses of a memory differ in one of its bits. -/
theorem eq_of_testBit_lt {m : Memory} {a b : Nat} (ha : a < m.size) (hb : b < m.size)
    (h : ∀ i < m.depth, a.testBit i = b.testBit i) : a = b := by
  have hsize := m.size_le
  rw [Nat.one_shiftLeft] at hsize
  refine Nat.eq_of_testBit_eq fun i => ?_
  by_cases hi : i < m.depth
  · exact h i hi
  · have hle := Nat.pow_le_pow_right (show 0 < 2 by decide) (Nat.le_of_not_lt hi)
    rw [Nat.testBit_lt_two_pow (Nat.lt_of_lt_of_le ha (Nat.le_trans hsize hle)),
      Nat.testBit_lt_two_pow (Nat.lt_of_lt_of_le hb (Nat.le_trans hsize hle))]

/-- A byte of the memory that was changed is read back, and every other byte stays. -/
theorem byte_setByte (m : Memory) (address other : Nat) (value : UInt8) :
    (m.setByte address value).byte other =
      if other = address ∧ address < m.size then value else m.byte other := by
  by_cases ha : address < m.size
  · by_cases ho : other < m.size
    · have hiff : (∀ i < m.depth, other.testBit i = address.testBit i) ↔ other = address :=
        ⟨eq_of_testBit_lt ho ha, fun h _ _ => by rw [h]⟩
      simp [byte, setByte, ha, ho, Cells.get_set, hiff]
    · have hne : other ≠ address := by omega
      simp [byte, setByte, ha, ho, hne]
  · simp [setByte, ha]

end Memory

end ArrayLang.Machine
