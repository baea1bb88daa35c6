/-!
# Surrogate pairs

Escapes can spell a character beyond the basic plane as two code units, a high and a low surrogate.
A unit of such a pair that stands alone is no character.

* `ofUnits?_map_toNat`: the code points of a text spell that text.
-/

namespace Shorthand.Text

/-- Whether `n` is a high surrogate. -/
def isHighSurrogate (n : Nat) : Bool :=
  decide (0xd800 ≤ n) && decide (n ≤ 0xdbff)

/-- Whether `n` is a low surrogate. -/
def isLowSurrogate (n : Nat) : Bool :=
  decide (0xdc00 ≤ n) && decide (n ≤ 0xdfff)

/-- The code point of a surrogate pair: each holds ten of its bits. -/
def ofSurrogates (high low : Nat) : Nat :=
  0x10000 + high % 0x400 * 0x400 + low % 0x400

/-- The character with the given code point. -/
def ofCodePoint? (n : Nat) : Option Char :=
  if n.isValidChar then some (Char.ofNat n) else none

/-- The text that code points and surrogates spell, if the surrogates are paired. -/
def ofUnits? : List Nat → Option (List Char)
  | [] => some []
  | unit :: units =>
    match units with
    | [] => (ofCodePoint? unit).map fun c => [c]
    | low :: rest =>
      if isHighSurrogate unit && isLowSurrogate low then
        match ofCodePoint? (ofSurrogates unit low), ofUnits? rest with
        | some c, some cs => some (c :: cs)
        | _, _ => none
      else
        match ofCodePoint? unit, ofUnits? (low :: rest) with
        | some c, some cs => some (c :: cs)
        | _, _ => none

@[simp]
theorem ofCodePoint?_toNat (c : Char) : ofCodePoint? c.toNat = some c := by
  have h : c.toNat.isValidChar := c.valid
  rw [ofCodePoint?, if_pos h, Char.ofNat_toNat]

@[simp]
theorem isHighSurrogate_toNat (c : Char) : isHighSurrogate c.toNat = false := by
  have h : c.toNat.isValidChar := c.valid
  simp only [isHighSurrogate, Bool.and_eq_false_iff, decide_eq_false_iff_not]
  simp only [Nat.isValidChar] at h
  omega

/-- The code points of a text spell that text. -/
theorem ofUnits?_map_toNat (cs : List Char) : ofUnits? (cs.map Char.toNat) = some cs := by
  induction cs with
  | nil => rfl
  | cons c cs ih =>
    cases cs with
    | nil =>
      rw [List.map_cons, List.map_nil, ofUnits?, ofCodePoint?_toNat, Option.map_some]
    | cons d cs =>
      rw [List.map_cons] at ih
      rw [List.map_cons, List.map_cons, ofUnits?]
      simp only [isHighSurrogate_toNat, Bool.false_and, Bool.false_eq_true, if_false,
        ofCodePoint?_toNat, ih]

end Shorthand.Text
