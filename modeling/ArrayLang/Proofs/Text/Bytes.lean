import ArrayLang.Text.Utf8

/-!
# Bytes and lines of texts

The bytes of a text are those of its characters, one behind the other.  An ASCII character is one
byte, and the bytes of any other character are not ASCII.  So ASCII bytes can be looked for without
regard to characters, and they are read as the characters that they stand for.
-/

namespace ArrayLang.Text

theorem bytesOfText_append (a b : String) :
    bytesOfText (a ++ b) = bytesOfText a ++ bytesOfText b := by
  simp [bytesOfText, String.toUTF8_eq_toByteArray]

theorem bytesOfText_ofList (chars : List Char) :
    bytesOfText (String.ofList chars) = chars.flatMap String.utf8EncodeChar := by
  simp [bytesOfText, String.toUTF8_eq_toByteArray, List.utf8Encode]

theorem bytesOfText_ofList_append (a b : List Char) :
    bytesOfText (String.ofList (a ++ b)) =
      bytesOfText (String.ofList a) ++ bytesOfText (String.ofList b) := by
  rw [String.ofList_append, bytesOfText_append]

/-! ## ASCII characters -/

section

variable {c : Char}

theorem utf8EncodeChar_of_ascii (h : c.toNat < 128) :
    String.utf8EncodeChar c = [UInt8.ofNat c.toNat] := by
  have hsmall : c.val.toNat ≤ 127 := Nat.le_of_lt_succ h
  simp only [String.utf8EncodeChar, if_pos hsmall]
  rfl

theorem le_of_mem_utf8EncodeChar (h : 128 ≤ c.toNat) {b : UInt8}
    (hb : b ∈ String.utf8EncodeChar c) : 128 ≤ b.toNat := by
  have hlarge : ¬c.val.toNat ≤ 127 := Nat.not_le.mpr h
  simp only [String.utf8EncodeChar, if_neg hlarge] at hb
  split at hb
  · simp only [List.mem_cons, List.not_mem_nil, or_false] at hb
    rcases hb with rfl | rfl
    all_goals simp only [UInt8.toNat_ofNat']; omega
  · split at hb
    · simp only [List.mem_cons, List.not_mem_nil, or_false] at hb
      rcases hb with rfl | rfl | rfl
      all_goals simp only [UInt8.toNat_ofNat']; omega
    · simp only [List.mem_cons, List.not_mem_nil, or_false] at hb
      rcases hb with rfl | rfl | rfl | rfl
      all_goals simp only [UInt8.toNat_ofNat']; omega

/-- An ASCII byte stands for an ASCII character, wherever it is found. -/
theorem mem_utf8EncodeChar_iff {b : UInt8} (hb : b.toNat < 128) :
    b ∈ String.utf8EncodeChar c ↔ c.toNat = b.toNat := by
  by_cases hc : c.toNat < 128
  · rw [utf8EncodeChar_of_ascii hc, List.mem_singleton, ← UInt8.toNat_inj, UInt8.toNat_ofNat']
    omega
  · constructor
    · intro hmem
      have hle := le_of_mem_utf8EncodeChar (Nat.le_of_not_lt hc) hmem
      omega
    · intro heq
      omega

end

theorem bytesOfText_ofList_of_ascii {chars : List Char} (h : ∀ c ∈ chars, c.toNat < 128) :
    bytesOfText (String.ofList chars) = chars.map fun c => UInt8.ofNat c.toNat := by
  rw [bytesOfText_ofList]
  induction chars with
  | nil => rfl
  | cons c rest ih =>
      obtain ⟨hc, hrest⟩ := List.forall_mem_cons.mp h
      rw [List.flatMap_cons, utf8EncodeChar_of_ascii hc, ih hrest, List.map_cons,
        List.singleton_append]

/-! ## ASCII bytes -/

/-- The character for which an ASCII byte stands. -/
def charOfByte (b : UInt8) : Char := Char.ofNat b.toNat

theorem charOfByte_ofNat {c : Char} (h : c.toNat < 128) :
    charOfByte (UInt8.ofNat c.toNat) = c := by
  rw [charOfByte, UInt8.toNat_ofNat', Nat.mod_eq_of_lt (by omega), Char.ofNat_toNat]

theorem leadingChar?_of_ascii {b : UInt8} (hb : b.toNat < 128) (rest : List UInt8) :
    leadingChar? (b :: rest) = some (charOfByte b, 1) := by
  have hlt : b < 0x80 := UInt8.lt_iff_toNat_lt.mpr hb
  have hvalid : b.toUInt32.isValidChar := by
    left
    rw [UInt8.toNat_toUInt32]
    omega
  have hchar : charOfByte b = ⟨b.toUInt32, hvalid⟩ := by
    rw [charOfByte, ← UInt8.toNat_toUInt32]
    exact Char.ofNat_toNat ⟨b.toUInt32, hvalid⟩
  have hscalar : scalar? 0 b.toUInt32 = some (charOfByte b) := by
    rw [scalar?, dif_pos hvalid, if_pos UInt32.zero_le, hchar]
  refine (if_pos hlt).trans ?_
  rw [hscalar]
  rfl

theorem glyphs_of_ascii {bytes : List UInt8} (h : ∀ b ∈ bytes, b.toNat < 128) :
    glyphs bytes = bytes.map fun b => .char (charOfByte b) := by
  rw [glyphs]
  induction bytes with
  | nil => rfl
  | cons b rest ih =>
      obtain ⟨hb, hrest⟩ := List.forall_mem_cons.mp h
      rw [glyphsFrom, leadingChar?_of_ascii hb, List.map_cons, ← ih hrest]

/-! ## Lines -/

/-- A text is split at its first line break, or at whatever ends its lines. -/
theorem eq_of_append_cons {α : Type} {x : α} {a b s t : List α} (ha : x ∉ a) (hb : x ∉ b)
    (h : a ++ x :: s = b ++ x :: t) : a = b ∧ s = t := by
  induction a generalizing b with
  | nil =>
      cases b with
      | nil => exact ⟨rfl, (List.cons.inj h).2⟩
      | cons c b => exact absurd ((List.cons.inj h).1 ▸ List.mem_cons_self) hb
  | cons c a ih =>
      cases b with
      | nil => exact absurd ((List.cons.inj h).1 ▸ List.mem_cons_self) ha
      | cons c' b =>
          obtain ⟨rfl, hrest⟩ := List.cons.inj h
          obtain ⟨rfl, rfl⟩ := ih (fun hmem => ha (List.mem_cons_of_mem _ hmem))
            (fun hmem => hb (List.mem_cons_of_mem _ hmem)) hrest
          exact ⟨rfl, rfl⟩

end ArrayLang.Text
