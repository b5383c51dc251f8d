import PL0.Text.Numeral
import PL0.Proofs.Text.Spacing

/-!
# Numerals are read back

What is written in decimal is read as the same number, with and without a sign (`readNat_repr`,
`readInt32_decimal32`).  A text that begins with a digit has no sign, so its reading is that of its digits.  A numeral
is one word (`isUnbroken_decimal32`).
-/

namespace PL0

section

variable {digits : List Char} (hne : digits ≠ []) (hdigits : ∀ d ∈ digits, d.isDigit)

include hne hdigits

theorem readNat_of_digits (bound : Nat) : readNat bound digits = readDigits bound .tooLarge 0 digits := by
  unfold readNat
  split
  · exact absurd rfl hne
  · exact absurd (hdigits '+' (by simp)) (by decide)
  · rfl

theorem readInt32_of_digits :
    readInt32 digits = (readDigits (Int32.size / 2 - 1) .tooLarge 0 digits).map Int32.ofNat := by
  unfold readInt32
  split
  · exact absurd rfl hne
  · exact absurd (hdigits '+' (by simp)) (by decide)
  · exact absurd (hdigits '-' (by simp)) (by decide)
  · rfl

theorem readMagnitude_of_digits (bound : Nat) (overflow : NumeralFault) :
    readMagnitude bound overflow digits = readDigits bound overflow 0 digits := by
  cases digits with
  | nil => exact absurd rfl hne
  | cons d digits => rfl

end

theorem isDigit_toDigits {n : Nat} : ∀ d ∈ Nat.toDigits 10 n, d.isDigit :=
  fun _ hd => Nat.isDigit_of_mem_toDigits (by decide) (by decide) hd

theorem readNat_repr {bound n : Nat} (h : n ≤ bound) : readNat bound n.repr.toList = .ok n := by
  rw [Nat.toList_repr, readNat_of_digits Nat.toDigits_ne_nil isDigit_toDigits, readDigits_toDigits h]

theorem toList_decimal32_of_nonneg {v : Int32} (h : 0 ≤ v.toInt) :
    (decimal32 v).toList = Nat.toDigits 10 v.toInt.toNat := by
  have habs : v.toInt.natAbs = v.toInt.toNat := by omega
  rw [decimal32, decimal, if_neg (by omega), Nat.toList_repr, habs]

theorem toList_decimal32_of_neg {v : Int32} (h : v.toInt < 0) :
    (decimal32 v).toList = '-' :: Nat.toDigits 10 (-v.toInt).toNat := by
  have habs : v.toInt.natAbs = (-v.toInt).toNat := by omega
  rw [decimal32, decimal, if_pos h, String.toList_append, Nat.toList_repr, habs]
  rfl

theorem ofNat_toInt_of_nonneg {v : Int32} (h : 0 ≤ v.toInt) : Int32.ofNat v.toInt.toNat = v := by
  rw [← Int32.ofInt_eq_ofNat, Int.toNat_of_nonneg h, Int32.ofInt_toInt]

/-- An integer that was written is read back. -/
theorem readInt32_decimal32 (v : Int32) : readInt32 (decimal32 v).toList = .ok v := by
  have hlower := v.le_toInt
  have hupper := v.toInt_lt
  have hsize : Int32.size / 2 = 2 ^ 31 := by decide
  by_cases hsign : v.toInt < 0
  · have hvalue : Int32.ofInt (-((-v.toInt).toNat : Int)) = v := by
      rw [Int.toNat_of_nonneg (by omega), Int.neg_neg, Int32.ofInt_toInt]
    rw [toList_decimal32_of_neg hsign, readInt32, readMagnitude_of_digits Nat.toDigits_ne_nil isDigit_toDigits,
      readDigits_toDigits (by omega)]
    exact congrArg _ hvalue
  · rw [toList_decimal32_of_nonneg (by omega), readInt32_of_digits Nat.toDigits_ne_nil isDigit_toDigits,
      readDigits_toDigits (by omega)]
    exact congrArg _ (ofNat_toInt_of_nonneg (by omega))

/-! ### Numerals are words -/

private theorem isBlank_of_isDigit {c : Char} (h : c.isDigit) : isBlank c = false :=
  isBlank_of_isAlphanum (by simp [Char.isAlphanum, h])

theorem isUnbroken_toDigits (n : Nat) : IsUnbroken (Nat.toDigits 10 n) :=
  ⟨Nat.toDigits_ne_nil, fun c hc => isBlank_of_isDigit (isDigit_toDigits c hc)⟩

theorem isUnbroken_decimal32 (v : Int32) : IsUnbroken (decimal32 v).toList := by
  by_cases hsign : v.toInt < 0
  · rw [toList_decimal32_of_neg hsign]
    refine ⟨by simp, fun c hc => ?_⟩
    rcases List.mem_cons.1 hc with rfl | hc
    · rfl
    · exact (isUnbroken_toDigits _).2 c hc
  · rw [toList_decimal32_of_nonneg (by omega)]
    exact isUnbroken_toDigits _

end PL0
