/-!
# Hexadecimal digits
-/

namespace Shorthand.Text

/-- The value of a hexadecimal digit. -/
def hexDigit? (c : Char) : Option Nat :=
  if '0' ≤ c ∧ c ≤ '9' then some (c.toNat - '0'.toNat)
  else if 'a' ≤ c ∧ c ≤ 'f' then some (c.toNat - 'a'.toNat + 10)
  else if 'A' ≤ c ∧ c ≤ 'F' then some (c.toNat - 'A'.toNat + 10)
  else none

/-- The number that digits of the given base spell, each no greater than fifteen, read on from
`value`. -/
def ofDigitsFrom? (base value : Nat) : List Char → Option Nat
  | [] => some value
  | c :: cs =>
    match hexDigit? c with
    | some digit => if digit < base then ofDigitsFrom? base (base * value + digit) cs else none
    | none => none

/-- The number that hexadecimal digits spell. -/
def ofHex? (digits : List Char) : Option Nat :=
  ofDigitsFrom? 16 0 digits

end Shorthand.Text
