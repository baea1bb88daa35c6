import Shorthand.Count
import Shorthand.Text.Hex
import Shorthand.Text.Surrogates

/-!
# JSON tokens

Splits a JSON text into brackets, separators and scalars. White space between them is dropped, and
it is not checked here that they form a document.
-/

namespace Shorthand.Json

/-- A token of a JSON text. -/
inductive Token
  | openList
  | closeList
  | openTable
  | closeTable
  | comma
  | colon
  | null
  | bool (value : Bool)
  /-- A number, with its value if it is written as a natural number. -/
  | number (natural? : Option Nat)
  /-- A string, with its text unless a surrogate in it has no partner. -/
  | string (text? : Option String)
deriving Repr, DecidableEq

/-! ### Strings -/

/-- The character that a one-letter escape stands for. -/
def escaped? : Char → Option Char
  | '"' => some '"'
  | '\\' => some '\\'
  | '/' => some '/'
  | 'b' => some '\x08'
  | 'f' => some '\x0c'
  | 'n' => some '\n'
  | 'r' => some '\r'
  | 't' => some '\t'
  | _ => none

/-- The code units of a string, which is given from behind its opening mark on, and what follows its
closing mark. -/
def readString? : List Char → Option (List Nat × List Char)
  | [] => none
  | c :: cs =>
    if c = '"' then some ([], cs)
    else if c = '\\' then
      match cs with
      | [] => none
      | e :: cs =>
        if e = 'u' then
          match cs with
          | h₁ :: h₂ :: h₃ :: h₄ :: cs =>
            match Text.ofHex? [h₁, h₂, h₃, h₄], readString? cs with
            | some unit, some (units, rest) => some (unit :: units, rest)
            | _, _ => none
          | _ => none
        else
          match escaped? e, readString? cs with
          | some c, some (units, rest) => some (c.toNat :: units, rest)
          | _, _ => none
    else if c.toNat < 0x20 then none
    else (readString? cs).map fun (units, rest) => (c.toNat :: units, rest)

/-! ### Numbers -/

/-- Whether `c` may stand in a number. -/
def isNumberChar (c : Char) : Bool :=
  c.isDigit || c == '-' || c == '+' || c == '.' || c == 'e' || c == 'E'

/-- Whether the characters are at least one digit and nothing else. -/
def isDigits (cs : List Char) : Bool :=
  !cs.isEmpty && cs.all Char.isDigit

/-- Whether the characters are an exponent, or there are none. -/
def isExponent : List Char → Bool
  | [] => true
  | e :: cs =>
    (e == 'e' || e == 'E') &&
      match cs with
      | [] => false
      | sign :: digits =>
        if sign == '+' || sign == '-' then isDigits digits else isDigits (sign :: digits)

/-- Whether the characters are a fraction and an exponent, either of which may be missing. -/
def isFraction : List Char → Bool
  | '.' :: cs => isDigits (cs.takeWhile Char.isDigit) && isExponent (cs.dropWhile Char.isDigit)
  | cs => isExponent cs

/-- Whether the digits are a natural number without needless zeros in front. -/
def isNatural (digits : List Char) : Bool :=
  isDigits digits && (digits.length == 1 || digits.head? != some '0')

/-- The token of a number that is written with the given characters. -/
def number? (cs : List Char) : Option Token :=
  let unsigned := if cs.head? = some '-' then cs.tail else cs
  if isNatural cs then some (.number (some (Nat.ofDigitChars 10 cs 0)))
  else if isNatural (unsigned.takeWhile Char.isDigit) &&
      isFraction (unsigned.dropWhile Char.isDigit) then some (.number none)
  else none

/-! ### Tokens -/

/-- White space between tokens. -/
def isSpace (c : Char) : Bool :=
  c == ' ' || c == '\t' || c == '\n' || c == '\r'

/-- The token of a single character. -/
def glyph? : Char → Option Token
  | '[' => some .openList
  | ']' => some .closeList
  | '{' => some .openTable
  | '}' => some .closeTable
  | ',' => some .comma
  | ':' => some .colon
  | _ => none

/-- The word with which the characters begin, and what follows it. -/
def readWord? : List Char → Option (Token × List Char)
  | 'n' :: 'u' :: 'l' :: 'l' :: rest => some (.null, rest)
  | 't' :: 'r' :: 'u' :: 'e' :: rest => some (.bool true, rest)
  | 'f' :: 'a' :: 'l' :: 's' :: 'e' :: rest => some (.bool false, rest)
  | _ => none

/-- The token with which the text `c :: cs` begins, and what follows it. -/
def readToken? (c : Char) (cs : List Char) : Option (Token × List Char) :=
  match glyph? c with
  | some token => some (token, cs)
  | none =>
    if c = '"' then
      (readString? cs).map fun (units, rest) =>
        (.string ((Text.ofUnits? units).map String.ofList), rest)
    else if isNumberChar c && c != 'e' && c != 'E' then
      (number? (c :: cs.takeWhile isNumberChar)).map fun token =>
        (token, cs.dropWhile isNumberChar)
    else readWord? (c :: cs)

/-! ### What follows is shorter -/

theorem length_lt_of_readString? {cs rest : List Char} {units : List Nat}
    (h : readString? cs = some (units, rest)) : rest.length < cs.length := by
  induction hlength : cs.length using Nat.strongRecOn generalizing cs units with
  | ind length ih =>
    subst hlength
    -- Each case goes on with the rest of the string, which is shorter.
    have more {cs' : List Char} {units : List Nat} (hlt : cs'.length < cs.length)
        (h : readString? cs' = some (units, rest)) : rest.length < cs.length :=
      Nat.lt_trans (ih _ hlt h rfl) hlt
    rw [readString?.eq_def] at h
    split at h
    next => cases h
    next c cs =>
      split at h
      next => cases h; simp
      next =>
        split at h
        next =>
          split at h
          next => cases h
          next e cs =>
            split at h
            next =>
              split at h
              next =>
                split at h
                next hmore => cases h; exact more (by simp only [List.length_cons]; omega) hmore
                next => cases h
              next => cases h
            next =>
              split at h
              next hmore => cases h; exact more (by simp only [List.length_cons]; omega) hmore
              next => cases h
        next =>
          split at h
          next => cases h
          next =>
            simp only [Option.map_eq_some_iff, Prod.exists, Prod.mk.injEq] at h
            obtain ⟨units, rest, hmore, -, rfl⟩ := h
            exact more (Nat.lt_succ_self _) hmore

theorem length_lt_of_readWord? {cs rest : List Char} {token : Token}
    (h : readWord? cs = some (token, rest)) : rest.length < cs.length := by
  unfold readWord? at h
  split at h <;> cases h <;> simp only [List.length_cons] <;> omega

/-- What follows a token is shorter than the text. -/
theorem length_lt_of_readToken? {c : Char} {cs rest : List Char} {token : Token}
    (h : readToken? c cs = some (token, rest)) : rest.length < (c :: cs).length := by
  unfold readToken? at h
  split at h
  next => cases h; simp
  next =>
    split at h
    next =>
      simp only [Option.map_eq_some_iff, Prod.exists, Prod.mk.injEq] at h
      obtain ⟨units, rest, hstring, -, rfl⟩ := h
      exact Nat.lt_succ_of_lt (length_lt_of_readString? hstring)
    next =>
      split at h
      next =>
        simp only [Option.map_eq_some_iff, Prod.mk.injEq] at h
        obtain ⟨-, -, -, rfl⟩ := h
        exact Nat.lt_succ_of_le (List.dropWhile_sublist _).length_le
      next => exact length_lt_of_readWord? h

/-- The tokens of a text. -/
def tokens? (text : List Char) : Option (List Token) :=
  match text with
  | [] => some []
  | c :: cs =>
    if isSpace c then tokens? cs
    else
      match h : readToken? c cs with
      | none => none
      | some (token, rest) =>
        have := length_lt_of_readToken? h
        (tokens? rest).map (token :: ·)
termination_by text.length
decreasing_by
  · simp
  · exact this

end Shorthand.Json
