import Shorthand.Text.Hex
import Shorthand.Text.Surrogates

/-!
# TOML tokens

Splits a TOML text into punctuation, white space, line breaks, strings and atoms. An atom is a run
of other characters: a bare key, or a number, date or word, which may go on behind a dot. Comments
are dropped.
-/

namespace Shorthand.Toml

/-- A token of a TOML text. -/
inductive Token
  | dot
  | equals
  | comma
  | openBracket
  | closeBracket
  | openBrace
  | closeBrace
  /-- Spaces and tabs. -/
  | blank (text : List Char)
  | newline
  /-- A string, which may have been written over several lines. -/
  | string (text : String) (multiline : Bool)
  | atom (text : List Char)
deriving Repr, DecidableEq

/-! ### Characters -/

/-- A space or a tab. -/
def isBlank (c : Char) : Bool :=
  c == ' ' || c == '\t'

/-- A control character that no string and no comment may hold. A tab is none. -/
def isControl (c : Char) : Bool :=
  (decide (c.toNat < 0x20) && c != '\t') || c.toNat == 0x7f

/-- The token of a single character. -/
def glyph? : Char → Option Token
  | '.' => some .dot
  | '=' => some .equals
  | ',' => some .comma
  | '[' => some .openBracket
  | ']' => some .closeBracket
  | '{' => some .openBrace
  | '}' => some .closeBrace
  | _ => none

/-- A character of an atom. -/
def isAtomChar (c : Char) : Bool :=
  (glyph? c).isNone && !isBlank c && c != '\n' && c != '\r' && c != '"' && c != '\x27' && c != '#'

/-- Whether `c :: cs` begins with a line break. -/
def beginsLineBreak (c : Char) (cs : List Char) : Bool :=
  c == '\n' || (c == '\r' && cs.head? == some '\n')

/-! ### Strings -/

/-- The character that a one-letter escape stands for. -/
def escaped? : Char → Option Char
  | '"' => some '"'
  | '\\' => some '\\'
  | 'b' => some '\x08'
  | 'e' => some '\x1b'
  | 'f' => some '\x0c'
  | 'n' => some '\n'
  | 'r' => some '\r'
  | 't' => some '\t'
  | _ => none

/-- The number of hexadecimal digits behind an escape with a code point. -/
def escapeLength? : Char → Option Nat
  | 'x' => some 2
  | 'u' => some 4
  | 'U' => some 8
  | _ => none

/-- Where in a string a character stands. -/
inductive Mode
  /-- Between characters of the text. -/
  | plain
  /-- Behind a backslash. -/
  | escape
  /-- Before the last digits of a code point, which spell `value` so far. -/
  | code (left value : Nat)
  /-- Behind a backslash and blanks, where the line has to end. -/
  | lineEnd
  /-- Behind an escaped line break, where blanks and line breaks are dropped. -/
  | skip
deriving DecidableEq

/-- Puts a character in front of a text that has been read. -/
def push (c : Char) (result : Option (List Char × List Char)) : Option (List Char × List Char) :=
  result.map fun (text, rest) => (c :: text, rest)

/-- Up to two more marks that belong to a text over several lines, and what follows its three
closing marks, given what follows the first three marks. -/
def closeLines (mark : Char) (cs : List Char) : List Char × List Char :=
  let marks := (cs.take 2).takeWhile (· == mark)
  (marks, cs.drop marks.length)

/-- The text of a string in double quotes, and what follows its closing marks. -/
def readBasic? (multiline : Bool) (mode : Mode) : List Char → Option (List Char × List Char)
  | [] => none
  | c :: cs =>
    match mode with
    | .escape =>
      match escapeLength? c, escaped? c with
      | some left, _ => readBasic? multiline (.code left 0) cs
      | none, some e => push e (readBasic? multiline .plain cs)
      | none, none =>
        if multiline && isBlank c then readBasic? multiline .lineEnd cs
        else if multiline && beginsLineBreak c cs then readBasic? multiline .skip cs
        else none
    | .code left value =>
      match Text.hexDigit? c with
      | none => none
      | some digit =>
        if left ≤ 1 then
          match Text.ofCodePoint? (16 * value + digit) with
          | some e => push e (readBasic? multiline .plain cs)
          | none => none
        else readBasic? multiline (.code (left - 1) (16 * value + digit)) cs
    | .lineEnd =>
      if isBlank c then readBasic? multiline .lineEnd cs
      else if beginsLineBreak c cs then readBasic? multiline .skip cs
      else none
    | mode =>
      if mode = .skip && (isBlank c || beginsLineBreak c cs) then readBasic? multiline .skip cs
      else if c = '"' then
        if multiline then
          match cs with
          | '"' :: '"' :: rest => some (closeLines '"' rest)
          | _ => push c (readBasic? multiline .plain cs)
        else some ([], cs)
      else if c = '\\' then readBasic? multiline .escape cs
      else if multiline && beginsLineBreak c cs then push c (readBasic? multiline .plain cs)
      else if isControl c then none
      else push c (readBasic? multiline .plain cs)

/-- The text of a string in single quotes, and what follows its closing marks. -/
def readLiteral? (multiline : Bool) : List Char → Option (List Char × List Char)
  | [] => none
  | c :: cs =>
    if c = '\x27' then
      if multiline then
        match cs with
        | '\x27' :: '\x27' :: rest => some (closeLines '\x27' rest)
        | _ => push c (readLiteral? multiline cs)
      else some ([], cs)
    else if multiline && beginsLineBreak c cs then push c (readLiteral? multiline cs)
    else if isControl c then none
    else push c (readLiteral? multiline cs)

/-- The text without a line break at its beginning. -/
def dropLineBreak : List Char → List Char
  | '\n' :: cs => cs
  | '\r' :: '\n' :: cs => cs
  | cs => cs

/-- The string behind its first opening mark. Three marks open one over several lines. -/
def readString? (mark : Char) (read? : Bool → List Char → Option (List Char × List Char))
    (cs : List Char) : Option (Token × List Char) :=
  if cs.take 2 = [mark, mark] then
    (read? true (dropLineBreak (cs.drop 2))).map fun (text, rest) =>
      (.string (String.ofList text) true, rest)
  else
    (read? false cs).map fun (text, rest) => (.string (String.ofList text) false, rest)

/-! ### Tokens -/

/-- What follows a comment that begins before `cs`. -/
def skipComment? (cs : List Char) : Option (List Char) :=
  if (cs.takeWhile fun c => c != '\n' && c != '\r').all fun c => !isControl c then
    some (cs.dropWhile fun c => c != '\n' && c != '\r')
  else none

/-- The token with which the text `c :: cs` begins, and what follows it. A comment is no token. -/
def readToken? (c : Char) (cs : List Char) : Option (Option Token × List Char) :=
  match glyph? c with
  | some token => some (some token, cs)
  | none =>
    if isBlank c then some (some (.blank (c :: cs.takeWhile isBlank)), cs.dropWhile isBlank)
    else if c = '\n' then some (some .newline, cs)
    else if c = '\r' then
      match cs with
      | '\n' :: rest => some (some .newline, rest)
      | _ => none
    else if c = '"' then
      (readString? '"' (fun multiline => readBasic? multiline .plain) cs).map fun (token, rest) =>
        (some token, rest)
    else if c = '\x27' then
      (readString? '\x27' readLiteral? cs).map fun (token, rest) => (some token, rest)
    else if c = '#' then (skipComment? cs).map fun rest => (none, rest)
    else some (some (.atom (c :: cs.takeWhile isAtomChar)), cs.dropWhile isAtomChar)

/-! ### What follows is shorter -/

theorem length_closeLines_le (mark : Char) (cs : List Char) :
    (closeLines mark cs).2.length ≤ cs.length := by
  simp [closeLines]

theorem push_eq_some {c : Char} {result : Option (List Char × List Char)}
    {text rest : List Char} (h : push c result = some (text, rest)) :
    ∃ text', result = some (text', rest) := by
  simp only [push, Option.map_eq_some_iff, Prod.exists, Prod.mk.injEq] at h
  obtain ⟨text', rest', h, -, rfl⟩ := h
  exact ⟨text', h⟩

theorem length_lt_of_readBasic? {multiline : Bool} {mode : Mode} {cs text rest : List Char}
    (h : readBasic? multiline mode cs = some (text, rest)) : rest.length < cs.length := by
  induction cs generalizing mode text with
  | nil => simp [readBasic?] at h
  | cons c cs ih =>
    have skip {mode : Mode} {text : List Char}
        (h : readBasic? multiline mode cs = some (text, rest)) : rest.length < (c :: cs).length :=
      Nat.lt_succ_of_lt (ih h)
    have keep {mode : Mode} {e : Char} {text : List Char}
        (h : push e (readBasic? multiline mode cs) = some (text, rest)) :
        rest.length < (c :: cs).length :=
      let ⟨_, h⟩ := push_eq_some h
      skip h
    unfold readBasic? at h
    split at h
    next =>
      split at h
      next => exact skip h
      next => exact keep h
      next =>
        split at h
        next => exact skip h
        next =>
          split at h
          next => exact skip h
          next => cases h
    next =>
      split at h
      next => cases h
      next =>
        split at h
        next =>
          split at h
          next => exact keep h
          next => cases h
        next => exact skip h
    next =>
      split at h
      next => exact skip h
      next =>
        split at h
        next => exact skip h
        next => cases h
    next =>
      split at h
      next => exact skip h
      next =>
        split at h
        next =>
          split at h
          next =>
            split at h
            next rest' _ =>
              have := length_closeLines_le '"' rest'
              rw [Option.some.injEq] at h
              simp only [h, List.length_cons] at this ⊢
              omega
            next => exact keep h
          next => cases h; simp
        next =>
          split at h
          next => exact skip h
          next =>
            split at h
            next => exact keep h
            next =>
              split at h
              next => cases h
              next => exact keep h

theorem length_lt_of_readLiteral? {multiline : Bool} {cs text rest : List Char}
    (h : readLiteral? multiline cs = some (text, rest)) : rest.length < cs.length := by
  induction cs generalizing text with
  | nil => simp [readLiteral?] at h
  | cons c cs ih =>
    have keep {e : Char} {text : List Char}
        (h : push e (readLiteral? multiline cs) = some (text, rest)) :
        rest.length < (c :: cs).length :=
      let ⟨_, h⟩ := push_eq_some h
      Nat.lt_succ_of_lt (ih h)
    unfold readLiteral? at h
    split at h
    next =>
      split at h
      next =>
        split at h
        next rest' =>
          have := length_closeLines_le '\x27' rest'
          rw [Option.some.injEq] at h
          simp only [h, List.length_cons] at this ⊢
          omega
        next => exact keep h
      next => cases h; simp
    next =>
      split at h
      next => exact keep h
      next =>
        split at h
        next => cases h
        next => exact keep h

theorem length_dropLineBreak_le (cs : List Char) : (dropLineBreak cs).length ≤ cs.length := by
  unfold dropLineBreak
  split
  next => simp
  next => simp only [List.length_cons]; omega
  next => exact Nat.le_refl _

theorem length_le_of_readString? {mark : Char}
    {read? : Bool → List Char → Option (List Char × List Char)}
    (hread : ∀ {multiline cs text rest}, read? multiline cs = some (text, rest) →
      rest.length < cs.length)
    {cs rest : List Char} {token : Token} (h : readString? mark read? cs = some (token, rest)) :
    rest.length ≤ cs.length := by
  unfold readString? at h
  split at h
  next =>
    simp only [Option.map_eq_some_iff, Prod.exists, Prod.mk.injEq] at h
    obtain ⟨text, rest, h, -, rfl⟩ := h
    have := hread h
    have := length_dropLineBreak_le (cs.drop 2)
    simp only [List.length_drop] at this
    omega
  next =>
    simp only [Option.map_eq_some_iff, Prod.exists, Prod.mk.injEq] at h
    obtain ⟨text, rest, h, -, rfl⟩ := h
    exact Nat.le_of_lt (hread h)

/-- What follows a token or a comment is shorter than the text. -/
theorem length_lt_of_readToken? {c : Char} {cs rest : List Char} {token? : Option Token}
    (h : readToken? c cs = some (token?, rest)) : rest.length < (c :: cs).length := by
  have dropWhile_lt (p : Char → Bool) : (cs.dropWhile p).length < (c :: cs).length :=
    Nat.lt_succ_of_le (List.dropWhile_sublist p).length_le
  unfold readToken? at h
  split at h
  next => cases h; simp
  next =>
    split at h
    next => cases h; exact dropWhile_lt isBlank
    next =>
      split at h
      next => cases h; simp
      next =>
        split at h
        next =>
          split at h
          next => cases h; simp only [List.length_cons]; omega
          next => cases h
        next =>
          split at h
          next =>
            simp only [Option.map_eq_some_iff, Prod.exists, Prod.mk.injEq] at h
            obtain ⟨token, rest, h, -, rfl⟩ := h
            exact Nat.lt_succ_of_le (length_le_of_readString? length_lt_of_readBasic? h)
          next =>
            split at h
            next =>
              simp only [Option.map_eq_some_iff, Prod.exists, Prod.mk.injEq] at h
              obtain ⟨token, rest, h, -, rfl⟩ := h
              exact Nat.lt_succ_of_le (length_le_of_readString? length_lt_of_readLiteral? h)
            next =>
              split at h
              next =>
                simp only [Option.map_eq_some_iff, Prod.mk.injEq] at h
                obtain ⟨rest, h, -, rfl⟩ := h
                unfold skipComment? at h
                split at h
                next => cases h; exact dropWhile_lt _
                next => cases h
              next => cases h; exact dropWhile_lt isAtomChar

/-- The tokens of a text. -/
def tokens? (text : List Char) : Option (List Token) :=
  match text with
  | [] => some []
  | c :: cs =>
    match h : readToken? c cs with
    | none => none
    | some (token?, rest) =>
      have := length_lt_of_readToken? h
      (tokens? rest).map (token?.toList ++ ·)
termination_by text.length
decreasing_by exact this

end Shorthand.Toml
