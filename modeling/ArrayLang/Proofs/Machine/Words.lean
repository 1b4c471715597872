import ArrayLang.Machine.Exec
import Mathlib.Algebra.Ring.Nat

/-!
# Words in memory

A word that was written is read back, cut to its width, and all other bytes stay as they were.
-/

namespace ArrayLang.Machine

open Code

namespace Memory

/-- The word of a type at an address. -/
def word (m : Memory) (ty : ValType) (address : Nat) : UInt64 :=
  wordOfBytes (m.read address ty.size)

/-- Change the word of a type at an address. -/
def setWord (m : Memory) (ty : ValType) (address : Nat) (value : UInt64) : Memory :=
  m.write address (bytesOfWord ty.size value)

@[simp] theorem length_bytesOfWord (count : Nat) (value : UInt64) :
    (bytesOfWord count value).length = count := by
  induction count generalizing value with
  | zero => rfl
  | succ count ih => simp [bytesOfWord, ih]

theorem toNat_shiftRight_eight (value : UInt64) : (value >>> 8).toNat = value.toNat / 256 := by
  rw [UInt64.toNat_shiftRight]
  exact Nat.shiftRight_eq_div_pow _ 8

/-- The bytes of a word are its digits to the base 256. -/
theorem getElem_bytesOfWord {count i : Nat} {value : UInt64}
    (hi : i < (bytesOfWord count value).length) :
    (bytesOfWord count value)[i] = UInt8.ofNat (value.toNat / 256 ^ i) := by
  induction count generalizing value i with
  | zero => exact absurd hi (by simp [bytesOfWord])
  | succ count ih =>
      cases i with
      | zero =>
          apply UInt8.toNat_inj.mp
          simp [bytesOfWord]
      | succ i =>
          simp only [bytesOfWord, List.getElem_cons_succ]
          rw [ih, toNat_shiftRight_eight, Nat.div_div_eq_div_mul, Nat.pow_succ, Nat.mul_comm]

theorem toNat_wordOfBytes_bytesOfWord {count : Nat} (hcount : count ≤ 8) (value : UInt64) :
    (wordOfBytes (bytesOfWord count value)).toNat = value.toNat % 256 ^ count := by
  induction count generalizing value with
  | zero => simp [bytesOfWord, wordOfBytes, Nat.mod_one]
  | succ count ih =>
      have hsplit : value.toNat % 256 ^ (count + 1) =
          value.toNat % 256 + 256 * (value.toNat / 256 % 256 ^ count) := by
        rw [Nat.pow_succ, Nat.mul_comm, Nat.mod_mul]
      have hle := Nat.mod_le value.toNat (256 ^ (count + 1))
      have hlt := value.toNat_lt
      rw [bytesOfWord, wordOfBytes, UInt64.toNat_add, UInt64.toNat_mul, ih (by omega),
        toNat_shiftRight_eight, UInt8.toNat_toUInt64, UInt64.toNat_toUInt8, hsplit]
      rw [hsplit] at hle
      change (value.toNat % 256 + 256 * (value.toNat / 256 % 256 ^ count) % 2 ^ 64) % 2 ^ 64 = _
      omega

theorem toNat_wordOfBytes_lt {bytes : List UInt8} (h : bytes.length ≤ 8) :
    (wordOfBytes bytes).toNat < 256 ^ bytes.length := by
  induction bytes with
  | nil => simp [wordOfBytes]
  | cons b rest ih =>
      rw [List.length_cons] at h
      have hrest := ih (by omega)
      have hb := b.toNat_lt
      have hpow : 256 ^ (rest.length + 1) ≤ 256 ^ 8 := Nat.pow_le_pow_right (by decide) h
      rw [Nat.pow_succ] at hpow
      rw [wordOfBytes, UInt64.toNat_add, UInt64.toNat_mul, UInt8.toNat_toUInt64, List.length_cons,
        Nat.pow_succ]
      change (b.toNat + 256 * (wordOfBytes rest).toNat % 2 ^ 64) % 2 ^ 64 < _
      omega

section

variable (m : Memory) {address other count : Nat} {bytes : List UInt8}

theorem byte_write_of_outside (h : other < address ∨ address + bytes.length ≤ other) :
    (m.write address bytes).byte other = m.byte other := by
  induction bytes generalizing m address with
  | nil => rfl
  | cons b rest ih =>
      rw [List.length_cons] at h
      rw [write, ih _ (by omega), byte_setByte, if_neg (by omega)]

theorem byte_write_of_inside {i : Nat} (hi : i < bytes.length)
    (hsize : address + bytes.length ≤ m.size) :
    (m.write address bytes).byte (address + i) = bytes[i] := by
  induction bytes generalizing m address i with
  | nil => exact absurd hi (by simp)
  | cons b rest ih =>
      rw [List.length_cons] at hi hsize
      rw [write]
      cases i with
      | zero =>
          rw [byte_write_of_outside _ (by omega), byte_setByte, if_pos (by omega)]
          rfl
      | succ i =>
          have hrest : ((m.setByte address b).write (address + 1) rest).byte (address + 1 + i) =
              rest[i] := ih (m.setByte address b) (by omega) (by rw [size_setByte]; omega)
          rw [Nat.add_right_comm, Nat.add_assoc] at hrest
          exact hrest

theorem read_write_of_disjoint
    (h : other + count ≤ address ∨ address + bytes.length ≤ other) :
    (m.write address bytes).read other count = m.read other count := by
  rw [read, read]
  refine List.map_congr_left fun i hi => ?_
  have hlt := List.mem_range.mp hi
  exact byte_write_of_outside m (by omega)

theorem read_write_self (hsize : address + bytes.length ≤ m.size) :
    (m.write address bytes).read address bytes.length = bytes := by
  refine List.ext_getElem (by simp) fun i hi hi' => ?_
  simp only [read, List.getElem_map, List.getElem_range]
  exact byte_write_of_inside m hi' hsize

/-- Bytes that are read are some of the bytes that are read from an earlier address on. -/
theorem read_slice {k n : Nat} (h : k + n ≤ count) :
    m.read (address + k) n = ((m.read address count).drop k).take n := by
  refine List.ext_getElem (by simp; omega) fun i hi hi' => ?_
  simp [read, Nat.add_assoc]

end

section

variable (m : Memory) {ty ty' : ValType} {address other : Nat} (value : UInt64)

@[simp] theorem size_setWord : (m.setWord ty address value).size = m.size :=
  size_write m address _

/-- A word is read back at the width of its type. -/
theorem word_setWord_self (hty : ty = .i32 ∨ ty = .i64) (hsize : address + ty.size ≤ m.size) :
    (m.setWord ty address value).word ty address = narrow ty value := by
  have hread : (m.write address (bytesOfWord ty.size value)).read address
      (bytesOfWord ty.size value).length = bytesOfWord ty.size value :=
    read_write_self m (by rwa [length_bytesOfWord])
  rw [length_bytesOfWord] at hread
  rw [word, setWord, hread]
  apply UInt64.toNat_inj.mp
  rcases hty with rfl | rfl
  · rw [toNat_wordOfBytes_bytesOfWord (by decide)]
    simp [narrow, ValType.size]
  · rw [toNat_wordOfBytes_bytesOfWord (by decide)]
    exact Nat.mod_eq_of_lt value.toNat_lt

/-- The bytes of a word that was written are its digits. -/
theorem byte_setWord {i : Nat} (hi : i < ty.size) (hsize : address + ty.size ≤ m.size) :
    (m.setWord ty address value).byte (address + i) = UInt8.ofNat (value.toNat / 256 ^ i) := by
  have hlength : (bytesOfWord ty.size value).length = ty.size := length_bytesOfWord ty.size value
  rw [setWord, byte_write_of_inside m (by rwa [hlength]) (by rwa [hlength]), getElem_bytesOfWord]

theorem word_setWord_of_disjoint
    (h : other + ty'.size ≤ address ∨ address + ty.size ≤ other) :
    (m.setWord ty address value).word ty' other = m.word ty' other := by
  rw [word, setWord, read_write_of_disjoint m (by rwa [length_bytesOfWord]), word]

theorem read_setWord_of_disjoint {count : Nat}
    (h : other + count ≤ address ∨ address + ty.size ≤ other) :
    (m.setWord ty address value).read other count = m.read other count :=
  read_write_of_disjoint m (by rwa [length_bytesOfWord])

end

end Memory

end ArrayLang.Machine
