import StageArchive.Arithmetic
import StageArchive.Json.Number
/-!
# Digits of natural numbers

The digits of a number spell it, without leading zeros. So the literal of a number below `2 ^ 64` is
read as that number.
-/

namespace StageArchive.Json

/-- One more digit makes ten times the number and the digit. -/
theorem ofDigits_append_singleton (digits : List Digit) (digit : Digit) :
    ofDigits (digits ++ [digit]) = ofDigits digits * 10 + digit.val := by
  rw [ofDigits, List.foldl_append]
  rfl

/-- Digits spell the last digits of a number. -/
theorem ofDigits_digitsPadded (count value : Nat) :
    ofDigits (digitsPadded count value) = value % 10 ^ count := by
  induction count generalizing value with
  | zero =>
      rw [Nat.pow_zero, Nat.mod_one]
      rfl
  | succ count ih =>
      have hdigit : (Fin.ofNat 10 value).val = value % 10 := rfl
      rw [digitsPadded, ofDigits_append_singleton, ih, hdigit, Nat.pow_succ,
        Nat.mul_comm (10 ^ count) 10, Nat.mod_mul]
      omega

/-- A number has no more digits than its bound. -/
theorem lt_pow_digitBound (value : Nat) : value < 10 ^ digitBound value := by
  have hbits : value < 2 ^ (value.log2 + 1) := Nat.lt_log2_self
  have hthree : value.log2 + 1 ≤ 3 * digitBound value := by
    rw [digitBound]
    omega
  calc value < 2 ^ (value.log2 + 1) := hbits
    _ ≤ 2 ^ (3 * digitBound value) := Nat.pow_le_pow_right (by decide) hthree
    _ = 8 ^ digitBound value := by rw [Nat.pow_mul]
    _ ≤ 10 ^ digitBound value := Nat.pow_le_pow_left (by decide) _

/-- Leading zeros change nothing. -/
theorem ofDigits_dropWhile (digits : List Digit) :
    ofDigits (digits.dropWhile (· == 0)) = ofDigits digits := by
  induction digits with
  | nil => rfl
  | cons digit digits ih =>
      by_cases hzero : digit = 0
      · rw [hzero, List.dropWhile_cons_of_pos rfl, ih]
        rfl
      · rw [List.dropWhile_cons_of_neg (by simpa using hzero)]

/-- The digits of a number spell it. -/
theorem ofDigits_digitsOf (value : Nat) : ofDigits (digitsOf value) = value := by
  have hspelled : ofDigits ((digitsPadded (digitBound value) value).dropWhile (· == 0)) = value := by
    rw [ofDigits_dropWhile, ofDigits_digitsPadded, Nat.mod_eq_of_lt (lt_pow_digitBound value)]
  unfold digitsOf
  split
  · rename_i hnone
    rw [hnone] at hspelled
    exact hspelled
  · exact hspelled

/-- The digits of a number are a single zero or start with another digit. -/
theorem digitsOf_eq (value : Nat) :
    digitsOf value = [0] ∨ ∃ digit digits, digitsOf value = digit :: digits ∧ digit ≠ 0 := by
  unfold digitsOf
  split
  · exact .inl rfl
  · rename_i hsome
    refine .inr ?_
    cases hdigits : (digitsPadded (digitBound value) value).dropWhile (· == 0) with
    | nil => exact absurd hdigits hsome
    | cons digit digits =>
        have hhead := List.head?_dropWhile_not (· == (0 : Digit))
          (digitsPadded (digitBound value) value)
        rw [hdigits] at hhead
        exact ⟨digit, digits, rfl, by simpa using hhead⟩

/-- The literal of a number below `2 ^ 64` is read as the number. -/
theorem Number.integer?_ofNat {value : Nat} (h : value < 2 ^ 64) :
    (Number.ofNat value).integer? = some (value : Int) := by
  simp only [integer?, ofNat, ofDigits_digitsOf]
  rw [if_neg (by decide), if_pos h]

end StageArchive.Json
