import Shorthand.Text.Hex
import Shorthand.Toml.Moment

/-!
# TOML scalars

The values that are written without quotation marks: truth values, integers, floats, dates and
times. Of the numbers only natural ones can be options, but all have to be well-formed and in range.
-/

namespace Shorthand.Toml

/-! ### Integers -/

/-- Digits without the underscores between them. Each underscore stands between two digits. -/
def ungroup? (isDigit : Char → Bool) : List Char → Option (List Char)
  | [] => none
  | [c] => if isDigit c then some [c] else none
  | c :: '_' :: cs => if isDigit c then (ungroup? isDigit cs).map (c :: ·) else none
  | c :: cs => if isDigit c then (ungroup? isDigit cs).map (c :: ·) else none

/-- The digits of a decimal integer. Zeros in front are not allowed. -/
def wholeDigits? (cs : List Char) : Option (List Char) :=
  (ungroup? Char.isDigit cs).bind fun digits =>
    if digits.length = 1 ∨ digits.head? ≠ some '0' then some digits else none

/-- The greatest size of a negative integer. -/
def greatestNegative : Nat := Nat.pow 2 127

/-- The greatest integer. -/
def greatestInteger : Nat := Nat.pow 2 128 - 1

/-- An integer of the given size, which is negative if it has a minus sign. -/
def ofInteger? (negative : Bool) (size : Nat) : Option Document :=
  if size = 0 then some (.natural 0)
  else if negative then if size ≤ greatestNegative then some .other else none
  else if size ≤ greatestInteger then some (.natural size)
  else none

/-- The base of an integer that begins with a zero and this letter. -/
def base? : Char → Option Nat
  | 'x' => some 16
  | 'o' => some 8
  | 'b' => some 2
  | _ => none

/-- Whether a sign is written, and whether it is a minus. -/
def splitSign : List Char → Bool × Bool × List Char
  | '+' :: cs => (true, false, cs)
  | '-' :: cs => (true, true, cs)
  | cs => (false, false, cs)

/-- The integer with this text. Only decimal integers have signs. -/
def integer? (text : List Char) : Option Document :=
  let (signed, negative, cs) := splitSign text
  let based? : Option (Nat × List Char) :=
    match cs with
    | '0' :: letter :: digits => (base? letter).map fun base => (base, digits)
    | _ => none
  match based? with
  | some (base, digits) =>
    if signed then none
    else
      ((ungroup? (fun c => (Text.hexDigit? c).isSome) digits).bind
        (Text.ofDigitsFrom? base 0)).bind (ofInteger? false)
  | none => (wholeDigits? cs).bind fun digits => ofInteger? negative (Nat.ofDigitChars 10 digits 0)

/-! ### Floats -/

/-- Whether a decimal number, the value of its digits times ten to the given power, is too great for
a binary floating-point number of 64 bits. Those end half a unit above the greatest of them. -/
def exceedsFloat (digits : List Char) (power : Int) : Bool :=
  let bound : Nat := Nat.pow 2 1024 - Nat.pow 2 970
  let value := Nat.ofDigitChars 10 digits 0
  if value = 0 ∨ power + digits.length ≤ 308 then false
  else if 308 < power then true
  else if 0 ≤ power then bound ≤ value * Nat.pow 10 power.toNat
  else bound ≤ value / Nat.pow 10 (-power).toNat

/-- The exponent with this text, from its letter on. Without a text it is zero. -/
def exponent? : List Char → Option Int
  | [] => some 0
  | letter :: cs =>
    if letter = 'e' ∨ letter = 'E' then
      let (_, negative, cs) := splitSign cs
      (ungroup? Char.isDigit cs).map fun digits =>
        let size : Int := Nat.ofDigitChars 10 digits 0
        if negative then -size else size
    else none

/-- The float with this text, behind its sign. It has a fraction or an exponent. -/
def decimal? (cs : List Char) : Option Document :=
  let isNumeral (c : Char) : Bool := c.isDigit || c == '_'
  let whole := cs.takeWhile isNumeral
  let rest := cs.dropWhile isNumeral
  if rest.isEmpty then none
  else
    let (point, fraction, rest) : Bool × List Char × List Char :=
      match rest with
      | '.' :: rest => (true, rest.takeWhile isNumeral, rest.dropWhile isNumeral)
      | rest => (false, [], rest)
    let fraction? := if point then ungroup? Char.isDigit fraction else some []
    match wholeDigits? whole, fraction?, exponent? rest with
    | some whole, some fraction, some exponent =>
      if exceedsFloat (whole ++ fraction) (exponent - fraction.length) then none else some .other
    | _, _, _ => none

/-- The float with this text. -/
def float? (text : List Char) : Option Document :=
  let (_, _, cs) := splitSign text
  if cs = "inf".toList ∨ cs = "nan".toList then some .other else decimal? cs

/-! ### Scalars -/

/-- The value with this text. -/
def scalar? (text : List Char) : Option Document :=
  if text = "true".toList then some (.bool true)
  else if text = "false".toList then some (.bool false)
  else
    match moment? text with
    | some moment => some moment.document
    | none => (integer? text).orElse fun _ => float? text

end Shorthand.Toml
