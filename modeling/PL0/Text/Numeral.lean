/-!
# Decimal numerals

Writing and reading integers in base ten.  A numeral may start with a plus sign, one of a signed type also with a
minus sign; leading zeros are free.  Reading goes from left to right and the first fault decides: at each character
first whether it is a digit, then whether the value still fits.  `readDigits_toDigits` says that what is written is
read back.
-/

namespace PL0

/-- Why a text is not a numeral of the wanted type. -/
inductive NumeralFault where
  | empty
  | invalidDigit
  | tooLarge
  | tooSmall
deriving DecidableEq

def NumeralFault.message : NumeralFault → String
  | .empty => "cannot parse integer from empty string"
  | .invalidDigit => "invalid digit found in string"
  | .tooLarge => "number too large to fit in target type"
  | .tooSmall => "number too small to fit in target type"

/-- Reads digits after a part worth `value`, as long as the value stays within `bound`. -/
def readDigits (bound : Nat) (overflow : NumeralFault) : Nat → List Char → Except NumeralFault Nat
  | value, [] => .ok value
  | value, c :: cs =>
    if c.isDigit then
      let next := 10 * value + (c.toNat - '0'.toNat)
      if next ≤ bound then readDigits bound overflow next cs else .error overflow
    else .error .invalidDigit

/-- Reads what follows a sign: at least one digit. -/
def readMagnitude (bound : Nat) (overflow : NumeralFault) : List Char → Except NumeralFault Nat
  | [] => .error .invalidDigit
  | cs => readDigits bound overflow 0 cs

/-- Reads an unsigned integer up to `bound`.  A minus sign is no sign here. -/
def readNat (bound : Nat) : List Char → Except NumeralFault Nat
  | [] => .error .empty
  | '+' :: cs => readMagnitude bound .tooLarge cs
  | cs => readDigits bound .tooLarge 0 cs

/-- Reads a signed integer of 32 bits. -/
def readInt32 : List Char → Except NumeralFault Int32
  | [] => .error .empty
  | '+' :: cs => (readMagnitude (Int32.size / 2 - 1) .tooLarge cs).map Int32.ofNat
  | '-' :: cs => (readMagnitude (Int32.size / 2) .tooSmall cs).map fun n => Int32.ofInt (-n)
  | cs => (readDigits (Int32.size / 2 - 1) .tooLarge 0 cs).map Int32.ofNat

/-- The decimal numeral of an integer, without a plus sign. -/
def decimal (i : Int) : String :=
  if i < 0 then "-" ++ i.natAbs.repr else i.natAbs.repr

/-- The decimal numeral of a machine word. -/
def decimal32 (v : Int32) : String :=
  decimal v.toInt

/-- Fills a text up with `fill` on the left, to at least `width` characters. -/
def padLeft (width : Nat) (fill : Char) (text : String) : String :=
  String.ofList (text.toList.leftpad width fill)

/-- Fills a text up with blanks on the right, to at least `width` characters. -/
def padRight (width : Nat) (text : String) : String :=
  String.ofList (text.toList.rightpad width ' ')

/-- An address in the log: at least four digits. -/
def zeroPadded (n : Nat) : String :=
  padLeft 4 '0' n.repr

theorem readDigits_of_le {bound : Nat} {overflow : NumeralFault} {cs : List Char} (hd : ∀ c ∈ cs, c.isDigit)
    {value : Nat} (h : Nat.ofDigitChars 10 cs value ≤ bound) :
    readDigits bound overflow value cs = .ok (Nat.ofDigitChars 10 cs value) := by
  induction cs generalizing value with
  | nil => simp [readDigits]
  | cons c cs ih =>
    rw [Nat.ofDigitChars_cons] at h ⊢
    have hle : 10 * value + (c.toNat - '0'.toNat) ≤ bound := by
      refine Nat.le_trans ?_ h
      rw [Nat.ofDigitChars_eq_ofDigitChars_zero]
      exact Nat.le_trans (Nat.le_mul_of_pos_left _ (Nat.pow_pos (by decide))) (Nat.le_add_right _ _)
    rw [readDigits, if_pos (hd c (by simp)), if_pos hle]
    exact ih (fun x hx => hd x (by simp [hx])) h

/-- Digits whose value is too large are refused. -/
theorem readDigits_of_gt {bound : Nat} {overflow : NumeralFault} {cs : List Char} (hd : ∀ c ∈ cs, c.isDigit)
    {value : Nat} (hvalue : value ≤ bound) (h : bound < Nat.ofDigitChars 10 cs value) :
    readDigits bound overflow value cs = .error overflow := by
  induction cs generalizing value with
  | nil =>
    rw [Nat.ofDigitChars_nil] at h
    omega
  | cons c cs ih =>
    rw [Nat.ofDigitChars_cons] at h
    rw [readDigits, if_pos (hd c (by simp))]
    by_cases hle : 10 * value + (c.toNat - '0'.toNat) ≤ bound
    · rw [if_pos hle]
      exact ih (fun x hx => hd x (by simp [hx])) hle h
    · rw [if_neg hle]

/-- Digits that were written are read back. -/
theorem readDigits_toDigits {bound : Nat} {overflow : NumeralFault} {n : Nat} (h : n ≤ bound) :
    readDigits bound overflow 0 (Nat.toDigits 10 n) = .ok n := by
  have hv := Nat.ofDigitChars_ten_toDigits (n := n)
  rw [readDigits_of_le (fun c hc => Nat.isDigit_of_mem_toDigits (by decide) (by decide) hc) (by rw [hv]; exact h), hv]

end PL0
