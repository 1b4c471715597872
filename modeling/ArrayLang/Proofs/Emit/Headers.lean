import ArrayLang.Emit.Array
import ArrayLang.Proofs.Machine.Frame
import ArrayLang.Proofs.Machine.Stores

/-!
# Headers of arrays

A header is the number `16 * length + kind`.  Packing and unpacking are inverse to each other, as
long as the length has 28 bits and the kind has four.  The code that makes an array packs a header
with a shift and an exclusive or, and the code for a length unpacks it with a shift; both do so in
every state of the machine.
-/

namespace ArrayLang.Layout

/-! ## Headers as numbers -/

theorem shiftLeft_xor_of_lt {a b k : Nat} (hb : b < 2 ^ k) : (a <<< k) ^^^ b = 2 ^ k * a + b := by
  apply Nat.eq_of_testBit_eq
  intro i
  rw [Nat.testBit_two_pow_mul_add a hb, Nat.testBit_xor, Nat.testBit_shiftLeft]
  by_cases hi : i < k
  · simp [hi, Nat.not_le.mpr hi]
  · have hhigh : b.testBit i = false := by
      apply Nat.testBit_lt_two_pow
      exact Nat.lt_of_lt_of_le hb (Nat.pow_le_pow_right (by decide) (Nat.le_of_not_lt hi))
    simp [hi, hhigh, Nat.le_of_not_lt hi]

section

variable {length kind header : UInt32}

theorem toNat_encodeHeader (hlength : length.toNat ≤ maxLength) (hkind : kind < 16) :
    (encodeHeader length kind).toNat = 16 * length.toNat + kind.toNat := by
  have hshift : (length <<< 4).toNat = length.toNat <<< 4 := by
    rw [maxLength] at hlength
    rw [UInt32.toNat_shiftLeft]
    apply Nat.mod_eq_of_lt
    change length.toNat <<< 4 < 2 ^ 32
    rw [Nat.shiftLeft_eq]
    omega
  rw [encodeHeader, UInt32.toNat_xor, hshift]
  have hlt : kind.toNat < 2 ^ 4 := UInt32.lt_iff_toNat_lt.mp hkind
  exact shiftLeft_xor_of_lt hlt

theorem toNat_decodeHeader_fst : (decodeHeader header).1.toNat = header.toNat / 16 := by
  rw [decodeHeader, UInt32.toNat_shiftRight]
  exact Nat.shiftRight_eq_div_pow _ 4

theorem toNat_decodeHeader_snd : (decodeHeader header).2.toNat = header.toNat % 16 := by
  rw [decodeHeader, UInt32.toNat_and]
  exact Nat.and_two_pow_sub_one_eq_mod _ 4

theorem decodeHeader_encodeHeader (hlength : length.toNat ≤ maxLength) (hkind : kind < 16) :
    decodeHeader (encodeHeader length kind) = (length, kind) := by
  have hlt : kind.toNat < 16 := UInt32.lt_iff_toNat_lt.mp hkind
  have hfst : (decodeHeader (encodeHeader length kind)).1 = length := by
    apply UInt32.toNat_inj.mp
    rw [toNat_decodeHeader_fst, toNat_encodeHeader hlength hkind]
    omega
  have hsnd : (decodeHeader (encodeHeader length kind)).2 = kind := by
    apply UInt32.toNat_inj.mp
    rw [toNat_decodeHeader_snd, toNat_encodeHeader hlength hkind]
    omega
  exact Prod.ext hfst hsnd

theorem encodeHeader_decodeHeader (header : UInt32) :
    encodeHeader (decodeHeader header).1 (decodeHeader header).2 = header := by
  have hword := header.toNat_lt
  have hlength : (decodeHeader header).1.toNat ≤ maxLength := by
    rw [toNat_decodeHeader_fst, maxLength]
    omega
  have hkind : (decodeHeader header).2 < 16 := by
    rw [UInt32.lt_iff_toNat_lt, toNat_decodeHeader_snd]
    exact Nat.mod_lt _ (by decide)
  apply UInt32.toNat_inj.mp
  rw [toNat_encodeHeader hlength hkind, toNat_decodeHeader_fst, toNat_decodeHeader_snd]
  exact Nat.div_add_mod _ 16

theorem ElemKind.code_lt (kind : ElemKind) : kind.code < 16 := by
  cases kind <;> decide

end

end ArrayLang.Layout

namespace ArrayLang.Emit

open Source Code Machine Layout

variable {H : Type} {env : List (Linked H)} {s : State H}

/-! ## Instructions on headers -/

/-- The instructions with which an allocation makes the header from the length on the stack. -/
def headerSteps (elem : Ty) : Block :=
  [.convert .wrap, i32Const lengthShift, .arith .i32 .shl,
    .constI32 (ElemKind.ofTy elem).code.toInt32, .arith .i32 .xor]

/-- The instructions that make the header stand between the length and the store. -/
theorem allocation_eq_append_store (t : Target) (length : Block) (elem : Ty) :
    ∃ before after, allocation t length elem =
      before ++ (length ++ headerSteps elem) ++ .store .i32 :: after := by
  refine ⟨capacityGuards t length (width elem) ++
    [.globalGet t.frontier, .localSet arraySlot, .localGet arraySlot], ?_, ?_⟩
  · exact [.localGet arraySlot, i32Const headerSize, .arith .i32 .add] ++ length ++
      [.convert .wrap, i32Const (width elem), .arith .i32 .mul, .arith .i32 .add,
        .globalSet t.frontier]
  · simp [allocation, headerSteps]

/-- An operation on the lower halves of two words. -/
theorem exec_arith32 {op : ArithOp} {a b : UInt64} {value : UInt32}
    (h : arith32 op a.toUInt32 b.toUInt32 = some value) :
    exec env (.arith .i32 op) ((s.push a).push b) = .next (s.push value.toUInt64) := by
  have harith : arith .i32 op a b = some value.toUInt64 := by
    rw [arith, h]
    rfl
  simp only [exec, withTopTwo, withTop, State.push, harith]

theorem exec_convert {op : ConvertOp} (hop : op = .wrap ∨ op = .extendU) (value : UInt64) :
    exec env (.convert op) (s.push value) = .next (s.push value.toUInt32.toUInt64) := by
  rcases hop with rfl | rfl
  · rfl
  · rfl

theorem exec_headerSteps (elem : Ty) (length : UInt64) :
    execBlock env (headerSteps elem) (s.push length) =
      .next (s.push (encodeHeader length.toUInt32 (ElemKind.ofTy elem).code).toUInt64) := by
  let n := length.toUInt32
  let kind := (ElemKind.ofTy elem).code
  have hwrap : exec env (.convert .wrap) (s.push length) = .next (s.push n.toUInt64) :=
    exec_convert (Or.inl rfl) length
  have hshift : exec env (i32Const lengthShift) (s.push n.toUInt64) =
      .next ((s.push n.toUInt64).push 4) := rfl
  have hshl : exec env (.arith .i32 .shl) ((s.push n.toUInt64).push 4) =
      .next (s.push (n <<< 4).toUInt64) := by
    apply exec_arith32
    rw [UInt32.toUInt32_toUInt64]
    rfl
  have hkind : exec env (.constI32 kind.toInt32) (s.push (n <<< 4).toUInt64) =
      .next ((s.push (n <<< 4).toUInt64).push kind.toUInt64) := rfl
  have hxor : exec env (.arith .i32 .xor) ((s.push (n <<< 4).toUInt64).push kind.toUInt64) =
      .next (s.push (encodeHeader n kind).toUInt64) := by
    apply exec_arith32
    rw [UInt32.toUInt32_toUInt64, UInt32.toUInt32_toUInt64]
    rfl
  rw [headerSteps, execBlock_cons_of_next hwrap, execBlock_cons_of_next hshift,
    execBlock_cons_of_next hshl, execBlock_cons_of_next hkind, execBlock_cons_of_next hxor]
  rfl

/-- The instructions behind the load of a header take the length from it. -/
theorem exec_lengthSteps (header : UInt64) :
    execBlock env [i32Const lengthShift, .arith .i32 .shrU, .convert .extendU] (s.push header) =
      .next (s.push (decodeHeader header.toUInt32).1.toUInt64) := by
  let length := (decodeHeader header.toUInt32).1
  have hshift : exec env (i32Const lengthShift) (s.push header) =
      .next ((s.push header).push 4) := rfl
  have hshr : exec env (.arith .i32 .shrU) ((s.push header).push 4) =
      .next (s.push length.toUInt64) := exec_arith32 rfl
  have hextend : exec env (.convert .extendU) (s.push length.toUInt64) =
      .next (s.push length.toUInt64) := by
    rw [exec_convert (Or.inr rfl), UInt32.toUInt32_toUInt64]
  rw [execBlock_cons_of_next hshift, execBlock_cons_of_next hshr, execBlock_cons_of_next hextend]
  rfl

theorem execBlock_lengthOf {array : Block} {reference : UInt64}
    (harray : execBlock env array s = .next (s.push reference)) :
    execBlock env (lengthOf array) s =
      if inBounds s.memory .i32 reference.toUInt32 then
        let header := s.memory.word .i32 reference.toUInt32.toNat
        .next (s.push (decodeHeader header.toUInt32).1.toUInt64)
      else .halt (.trap (.outOfBounds reference.toUInt32)) s := by
  have hload : exec env (.load .i32) (s.push reference) =
      loadValue .i32 reference.toUInt32 s := rfl
  rw [lengthOf, execBlock_append_eq, harray, Outcome.andThen]
  by_cases hbounds : inBounds s.memory .i32 reference.toUInt32 = true
  · rw [loadValue_of_room (Or.inl rfl) (inBounds_iff.mp hbounds)] at hload
    rw [if_pos hbounds, execBlock_cons_of_next hload, exec_lengthSteps]
  · rw [loadValue, if_neg hbounds] at hload
    rw [if_neg hbounds, execBlock_cons, hload]
    rfl

/-- Packing and unpacking headers are inverse to each other, and the code for arrays does the same
in every state: what an allocation stores is the packed header of the length on the stack, and the
length of a reference is unpacked from the word to which it refers. -/
theorem header_codecs_agree (env : List (Linked H)) (s : State H) :
    (∀ length kind : UInt32, length.toNat ≤ maxLength → kind < 16 →
        decodeHeader (encodeHeader length kind) = (length, kind)) ∧
      (∀ header : UInt32,
        encodeHeader (decodeHeader header).1 (decodeHeader header).2 = header) ∧
      (∀ (t : Target) (code : Block) (elem : Ty),
        (∃ before after, allocation t code elem =
            before ++ (code ++ headerSteps elem) ++ .store .i32 :: after) ∧
          ∀ length : UInt32, execBlock env code s = .next (s.push length.toUInt64) →
            execBlock env (code ++ headerSteps elem) s =
              .next (s.push (encodeHeader length (ElemKind.ofTy elem).code).toUInt64)) ∧
      ∀ (code : Block) (reference : UInt64), execBlock env code s = .next (s.push reference) →
        execBlock env (lengthOf code) s =
          if inBounds s.memory .i32 reference.toUInt32 then
            let header := s.memory.word .i32 reference.toUInt32.toNat
            .next (s.push (decodeHeader header.toUInt32).1.toUInt64)
          else .halt (.trap (.outOfBounds reference.toUInt32)) s := by
  refine ⟨fun _ _ => decodeHeader_encodeHeader, encodeHeader_decodeHeader, ?_,
    fun _ _ => execBlock_lengthOf⟩
  intro t code elem
  constructor
  · exact allocation_eq_append_store t code elem
  · intro length hcode
    rw [execBlock_append_eq, hcode, Outcome.andThen, exec_headerSteps, UInt32.toUInt32_toUInt64]

/-- The longest array of arrays, whose header is the word at an address whose upper half counts for
nothing. -/
theorem longest_header_codecs_agree :
    let s : State Unit :=
      ⟨(Memory.zeros 8).setWord .i32 4 0xfffffff3, [], [("n", 0xfffffff), ("a", 0x100000004)], [],
        (), 0⟩
    decodeHeader (encodeHeader 0xfffffff 3) = (0xfffffff, 3) ∧
      execBlock [] ([.localGet "n"] ++ headerSteps (.array .int)) s = .next (s.push 0xfffffff3) ∧
      execBlock [] (lengthOf [.localGet "a"]) s = .next (s.push 0xfffffff) := by
  intro s
  let t : Target := ⟨.array, 8, ⟨0, 0⟩, ⟨0, 0⟩, "f"⟩
  obtain ⟨hdecode, -, hheader, hlength⟩ := header_codecs_agree [] s
  have hword : s.memory.word .i32 4 = 0xfffffff3 :=
    Memory.word_setWord_self (Memory.zeros 8) 0xfffffff3 (Or.inl rfl) (by decide)
  refine ⟨hdecode 0xfffffff 3 (by decide) (by decide), ?_, ?_⟩
  · exact (hheader t [.localGet "n"] (.array .int)).2 0xfffffff rfl
  · have hexec := hlength [.localGet "a"] 0x100000004 rfl
    rw [if_pos (by decide)] at hexec
    rw [hexec]
    change Outcome.next (s.push (decodeHeader (s.memory.word .i32 4).toUInt32).1.toUInt64) = _
    rw [hword]
    rfl

end ArrayLang.Emit
