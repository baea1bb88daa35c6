import Shorthand.Text.Hex

/-!
# Digits

The numbers that hexadecimal digits spell, and the digits with which numbers are written.

## Main definitions

* `SpellsHex`: the number that hexadecimal digits spell.

## Main results

* `SpellsHex.ofHex?_eq`: hexadecimal digits are read as the number that they spell;
* `exists_spellsHex`: a number can be written with as many hexadecimal digits as it needs or more;
* `head?_toDigits_ne`: a decimal number is written without needless zeros in front.
-/

namespace Shorthand.Text

/-! ## Hexadecimal digits -/

/-- A hexadecimal digit, in either case, with its value. -/
def IsHexDigit (c : Char) (value : Nat) : Prop :=
  "0123456789abcdef".toList[value]? = some c ∨ "0123456789ABCDEF".toList[value]? = some c

/-- The number that hexadecimal digits spell. -/
inductive SpellsHex : List Char → Nat → Prop
  | nil : SpellsHex [] 0
  | snoc {digits : List Char} {n : Nat} {c : Char} {value : Nat} (h : SpellsHex digits n)
      (hc : IsHexDigit c value) : SpellsHex (digits ++ [c]) (16 * n + value)

variable {c : Char} {value n base : Nat} {digits more : List Char}

theorem IsHexDigit.lt (h : IsHexDigit c value) : value < 16 := by
  rcases h with h | h
  · exact (List.getElem?_eq_some_iff.1 h).1
  · exact (List.getElem?_eq_some_iff.1 h).1

theorem IsHexDigit.hexDigit?_eq (h : IsHexDigit c value) : hexDigit? c = some value := by
  have hlower : ∀ value < 16, "0123456789abcdef".toList[value]?.bind hexDigit? = some value := by
    decide
  have hupper : ∀ value < 16, "0123456789ABCDEF".toList[value]?.bind hexDigit? = some value := by
    decide
  have hvalue := h.lt
  rcases h with h | h
  · have hread := hlower value hvalue
    rwa [h, Option.bind_some] at hread
  · have hread := hupper value hvalue
    rwa [h, Option.bind_some] at hread

theorem ofDigitsFrom?_append : ofDigitsFrom? base value (digits ++ more) =
    (ofDigitsFrom? base value digits).bind fun n => ofDigitsFrom? base n more := by
  induction digits generalizing value with
  | nil => rfl
  | cons c cs ih =>
    rw [List.cons_append, ofDigitsFrom?, ofDigitsFrom?]
    split
    next =>
      split
      next => exact ih
      next => rfl
    next => rfl

/-- Hexadecimal digits are read as the number that they spell. -/
theorem SpellsHex.ofHex?_eq (h : SpellsHex digits n) : ofHex? digits = some n := by
  induction h with
  | nil => rfl
  | snoc _ hc ih =>
    rw [ofHex?] at ih
    rw [ofHex?, ofDigitsFrom?_append, ih, Option.bind_some, ofDigitsFrom?, hc.hexDigit?_eq]
    exact if_pos hc.lt

theorem exists_isHexDigit (h : value < 16) : ∃ c, IsHexDigit c value := by
  have hlower : ∀ value < 16, "0123456789abcdef".toList[value]?.isSome = true := by decide
  obtain ⟨c, hc⟩ := Option.isSome_iff_exists.1 (hlower value h)
  exact ⟨c, .inl hc⟩

/-- A number can be written with any number of hexadecimal digits that suffices. -/
theorem exists_spellsHex (length : Nat) (h : n < Nat.pow 16 length) :
    ∃ digits, digits.length = length ∧ SpellsHex digits n := by
  induction length generalizing n with
  | zero => exact ⟨[], rfl, by rw [Nat.lt_one_iff.1 h]; exact .nil⟩
  | succ length ih =>
    have h : n < Nat.pow 16 length * 16 := h
    obtain ⟨digits, hlength, hdigits⟩ := ih (n := n / 16) (by omega)
    obtain ⟨c, hc⟩ := exists_isHexDigit (Nat.mod_lt n (by decide))
    refine ⟨digits ++ [c], by simp [hlength], ?_⟩
    have := hdigits.snoc hc
    rwa [Nat.div_add_mod] at this

/-! ## Decimal digits -/

/-- The first of several decimal digits of a number is not zero. -/
theorem head?_toDigits_ne (h : n ≠ 0) : (Nat.toDigits 10 n).head? ≠ some '0' := by
  induction n using Nat.strongRecOn with
  | ind n ih =>
    rcases Nat.lt_or_ge n 10 with hlt | hge
    · have hdigit : ∀ n < 10, n ≠ 0 → n.digitChar ≠ '0' := by decide
      rw [Nat.toDigits_of_lt_base hlt]
      simpa using hdigit n hlt h
    · have hfront := ih (n / 10) (by omega) (by omega)
      obtain ⟨c, cs, hcs⟩ : ∃ c cs, Nat.toDigits 10 (n / 10) = c :: cs :=
        List.exists_cons_of_ne_nil Nat.toDigits_ne_nil
      rw [hcs] at hfront
      rw [Nat.toDigits_of_base_le (by decide) hge, hcs]
      exact hfront

end Shorthand.Text
