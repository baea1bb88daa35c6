/-!
# Counts

Repeat counts, tab stop indices and numbers are natural numbers below `2 ^ 64`. Reading digits and
adding or multiplying counts stops at the greatest of them instead of overflowing.

* `ofDigits_digits`: the digits of a count read back as that count.
-/

namespace Shorthand.Count

/-- The greatest count. -/
def greatest : Nat := Nat.pow 2 64 - 1

/-- `n`, or the greatest count if `n` exceeds it. -/
def saturate (n : Nat) : Nat := min n greatest

/-- The sum of two counts, as far as it is one. -/
def add (m n : Nat) : Nat := saturate (m + n)

/-- The product of two counts, as far as it is one. -/
def mul (m n : Nat) : Nat := saturate (m * n)

/-- The count that decimal digits spell, or the greatest one if they spell more. -/
def ofDigits (digits : List Char) : Nat :=
  saturate (Nat.ofDigitChars 10 digits 0)

/-- The decimal digits of `n`. -/
def digits (n : Nat) : List Char :=
  Nat.toDigits 10 n

/-- The decimal digits of `n`, with zeros in front as far as they are fewer than `size`. -/
def paddedDigits (size n : Nat) : List Char :=
  (digits n).leftpad size '0'

theorem saturate_le (n : Nat) : saturate n ≤ greatest :=
  Nat.min_le_right n greatest

theorem saturate_of_le {n : Nat} (h : n ≤ greatest) : saturate n = n :=
  Nat.min_eq_left h

/-- The digits of a count read back as that count. -/
theorem ofDigits_digits {n : Nat} (h : n ≤ greatest) : ofDigits (digits n) = n := by
  rw [ofDigits, digits, Nat.ofDigitChars_toDigits (by decide) (by decide), saturate_of_le h]

end Shorthand.Count
