import ArrayLang.Text.Integer

/-!
# Decimal numbers

The decimal digits of a number read back as the number, and so does a number of 64 bits with a sign.
A positive number starts with another digit than zero, so that its digits announce no other base.
-/

namespace ArrayLang.Text

theorem digitValue?_of_isDigit {c : Char} (h : c.isDigit = true) :
    digitValue? c = some (c.toNat - '0'.toNat) ∧ c.toNat - '0'.toNat < 10 := by
  obtain ⟨hlo, hhi⟩ := Char.isDigit_iff_toNat.mp h
  constructor
  · have hrange : '0' ≤ c ∧ c ≤ '9' := by
      simp only [Char.le_def, UInt32.le_iff_toNat_le]
      exact ⟨hlo, hhi⟩
    rw [digitValue?, if_pos hrange]
  · simp only [Char.reduceToNat] at hlo hhi ⊢
    omega

theorem le_ofDigitChars (digits : List Char) (n : Nat) : n ≤ Nat.ofDigitChars 10 digits n := by
  rw [Nat.ofDigitChars_eq_ofDigitChars_zero]
  have hpow : 0 < 10 ^ digits.length := Nat.pow_pos (by decide)
  exact Nat.le_trans (Nat.le_mul_of_pos_left n hpow) (Nat.le_add_right _ _)

/-- Digits are read from the left, as long as the value has 64 bits. -/
theorem digitsFrom_eq {digits : List Char} {n : Nat} (hdigits : ∀ c ∈ digits, c.isDigit = true)
    (h : Nat.ofDigitChars 10 digits n < 0x10000000000000000) :
    digitsFrom 10 n digits = .ok (Nat.ofDigitChars 10 digits n) := by
  induction digits generalizing n with
  | nil => rfl
  | cons c rest ih =>
      obtain ⟨hc, hrest⟩ := List.forall_mem_cons.mp hdigits
      obtain ⟨hvalue, hlt⟩ := digitValue?_of_isDigit hc
      rw [Nat.ofDigitChars_cons, Nat.mul_comm] at h ⊢
      have hle := le_ofDigitChars rest (n * 10 + (c.toNat - '0'.toNat))
      rw [digitsFrom, hvalue]
      simp only
      rw [if_neg (Nat.not_le.mpr hlt), if_neg (Nat.not_le.mpr (Nat.lt_of_le_of_lt hle h))]
      exact ih hrest h

section

variable {n : Nat}

theorem isDigit_of_mem_digits : ∀ c ∈ Nat.toDigits 10 n, c.isDigit = true :=
  fun _ hc => Nat.isDigit_of_mem_toDigits (by decide) (by decide) hc

theorem digitsFrom_toDigits (h : n < 0x10000000000000000) :
    digitsFrom 10 0 (Nat.toDigits 10 n) = .ok n := by
  have hvalue : Nat.ofDigitChars 10 (Nat.toDigits 10 n) 0 = n := Nat.ofDigitChars_ten_toDigits
  rw [digitsFrom_eq isDigit_of_mem_digits (by rwa [hvalue]), hvalue]

/-- The first digit of a positive number is not zero. -/
theorem toDigits_eq_cons (hpos : 0 < n) : ∃ c rest, Nat.toDigits 10 n = c :: rest ∧ c ≠ '0' := by
  induction n using Nat.strongRecOn with
  | ind n ih =>
      rw [Nat.toDigits_eq_if (by decide)]
      by_cases hlt : n < 10
      · rw [if_pos hlt]
        exact ⟨_, _, rfl, by simpa using Nat.ne_of_gt hpos⟩
      · rw [if_neg hlt]
        obtain ⟨c, rest, heq, hc⟩ := ih (n / 10) (by omega) (by omega)
        exact ⟨c, rest ++ [(n % 10).digitChar], by rw [heq, List.cons_append], hc⟩

theorem magnitude?_toDigits (h : n < 0x10000000000000000) :
    magnitude? (Nat.toDigits 10 n) = .ok n := by
  by_cases hzero : n = 0
  · rw [hzero, Nat.toDigits_zero]
    rfl
  · obtain ⟨c, rest, heq, hc⟩ := toDigits_eq_cons (Nat.pos_of_ne_zero hzero)
    have hbase : splitBase (Nat.toDigits 10 n) = (10, Nat.toDigits 10 n) := by
      rw [heq]
      unfold splitBase
      split <;> simp_all
    have hplain : (Nat.toDigits 10 n).filter (· ≠ '_') = Nat.toDigits 10 n := by
      rw [List.filter_eq_self]
      intro c hc
      have hne : c ≠ '_' := by
        rintro rfl
        exact Nat.underscore_not_in_toDigits hc
      simpa using hne
    have hunderscore : (Nat.toDigits 10 n).contains '_' = false := by simp
    rw [magnitude?, if_neg (by simp), hbase]
    simp only [hplain, digitsFrom_toDigits h, hunderscore]
    rfl

theorem splitSign_toDigits : splitSign (Nat.toDigits 10 n) = (false, Nat.toDigits 10 n) := by
  have hdigits : ∀ c ∈ Nat.toDigits 10 n, c.isDigit = true := isDigit_of_mem_digits
  unfold splitSign
  split
  · next heq => exact absurd (hdigits '-' (by simp [heq])) (by decide)
  · next heq => exact absurd (hdigits '+' (by simp [heq])) (by decide)
  · rfl

theorem unsigned?_toDigits (h : n < 0x10000000000000000) :
    unsigned? 10 (Nat.toDigits 10 n) = .ok n := by
  rw [unsigned?, digitsFrom_toDigits h]
  exact Nat.toDigits_ne_nil

end

/-- The text of a whole number consists of digits and the minus sign. -/
theorem toNat_of_mem_repr {n : Int} {c : Char} (hc : c ∈ n.repr.toList) :
    45 ≤ c.toNat ∧ c.toNat ≤ 57 := by
  have hdigit {m : Nat} (hmem : c ∈ Nat.toDigits 10 m) : 45 ≤ c.toNat ∧ c.toNat ≤ 57 := by
    obtain ⟨hlo, hhi⟩ := Char.isDigit_iff_toNat.mp (isDigit_of_mem_digits c hmem)
    simp only [Char.reduceToNat] at hlo hhi
    omega
  rw [Int.repr_eq_if] at hc
  split at hc
  · rw [Nat.toList_repr] at hc
    exact hdigit hc
  · rw [String.toList_append, List.mem_append, Nat.toList_repr] at hc
    rcases hc with hsign | hmem
    · obtain rfl : c = '-' := by simpa using hsign
      decide
    · exact hdigit hmem

/-- A signed number of 64 bits reads back whenever magnitudes do. -/
theorem signed?_repr {read : List Char → Except IntegerError Nat}
    (hread : ∀ n < 0x10000000000000000, read (Nat.toDigits 10 n) = .ok n) (v : Int64) :
    signed? (splitSign v.toInt.repr.toList).1 (read (splitSign v.toInt.repr.toList).2) =
      .ok v.toInt := by
  have hlo := v.le_toInt
  have hhi := v.toInt_lt
  rw [Int.repr_eq_if]
  by_cases hnonneg : 0 ≤ v.toInt
  · rw [if_pos hnonneg, Nat.toList_repr, splitSign_toDigits]
    simp only
    rw [hread _ (by omega), signed?, if_neg Bool.false_ne_true, if_pos (by omega),
      Int.toNat_of_nonneg hnonneg]
  · have hsign : splitSign ("-" ++ (-v.toInt).toNat.repr).toList =
        (true, Nat.toDigits 10 (-v.toInt).toNat) := by
      rw [String.toList_append, Nat.toList_repr]
      rfl
    rw [if_neg hnonneg, hsign]
    simp only
    rw [hread _ (by omega), signed?, if_pos rfl, if_pos (by omega)]
    congr 1
    omega

theorem literal?_toString (v : Int64) : literal? (toString v.toInt).toList = .ok v.toInt :=
  signed?_repr (fun _ => magnitude?_toDigits) v

theorem decimal?_toString (v : Int64) : decimal? (toString v.toInt).toList = .ok v.toInt :=
  signed?_repr (fun _ => unsigned?_toDigits) v

end ArrayLang.Text
