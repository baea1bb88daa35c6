import Shorthand.Text.Bytes

/-!
# Tokens

The lexical units of an abbreviation: literal text, blanks, quotation marks, brackets, operators,
repeaters, numbering, the placeholder for supplied text, and fields. A token is a kind together
with the range of bytes that it covers.
-/

namespace Shorthand

/-- A repetition. In a token the index is zero; in a scope or on a node it is the position of one
clone. -/
structure Repeater where
  /-- How often the statement is repeated. -/
  count : Nat
  /-- The position of a clone in its sequence. -/
  index : Nat
  /-- Whether the count is left to the supplied text (`*` without a number). -/
  implicit : Bool
deriving Repr, DecidableEq

/-- A number that counts clones: `$`, `$$$`, `$@-3`, `$@^`. -/
structure Numbering where
  /-- The least number of digits. -/
  size : Nat
  /-- Whether the number counts down. -/
  reverse : Bool
  /-- The first number. -/
  base : Nat
  /-- How many repeaters further out the numbering continues from. -/
  climb : Nat
deriving Repr, DecidableEq

/-- A place to be filled: an editor's tab stop, or a reference to a variable. -/
inductive Field
  /-- A tab stop with the text that stands in it at first: `${1}`, `${1:name}`. -/
  | tabStop (index : Nat) (placeholder : String)
  /-- A reference to a variable: `${name}`. -/
  | reference (name : String)
deriving Repr, DecidableEq

/-- The two quotation marks. -/
inductive QuoteMark
  | single
  | double
deriving Repr, DecidableEq

/-- The three kinds of brackets. -/
inductive Bracket
  /-- Round brackets around a group of statements. -/
  | group
  /-- Square brackets around attributes. -/
  | attributes
  /-- Braces around text and expressions. -/
  | expression
deriving Repr, DecidableEq

/-- The operators. -/
inductive Operator
  /-- The next statement is a child: `>`. -/
  | child
  /-- The next statement is a sibling: `+`. -/
  | sibling
  /-- The next statement is one level further out: `^`. -/
  | climb
  /-- A class attribute: `.`. -/
  | className
  /-- An id attribute: `#`. -/
  | idName
  /-- The element closes itself: `/`. -/
  | close
  /-- Between the name and the value of an attribute: `=`. -/
  | equal
deriving Repr, DecidableEq

/-- What a token is. -/
inductive Token.Kind
  /-- Text, without the backslashes that escape its characters. -/
  | literal (value : String)
  /-- A run of white space. -/
  | blank (value : String)
  | quote (mark : QuoteMark)
  | bracket (bracket : Bracket) (opening : Bool)
  | operator (operator : Operator)
  | repeater (repeater : Repeater)
  | numbering (numbering : Numbering)
  /-- The place of supplied text: `$#`. -/
  | placeholder
  | field (field : Field)
deriving Repr, DecidableEq

/-- A token: its kind and the bytes from `start` up to `stop` that it covers. -/
structure Token where
  kind : Token.Kind
  /-- Offset of the first byte. -/
  start : Nat
  /-- Offset after the last byte. -/
  stop : Nat
deriving Repr, DecidableEq

/-- The bytes that a token covers. -/
def Token.span (token : Token) : Text.Span :=
  { offset := token.start, length := token.stop - token.start }

/-! ### Characters of quotes, brackets and operators -/

/-- The character of a quotation mark. -/
def QuoteMark.glyph : QuoteMark → Char
  | .single => '\x27'
  | .double => '"'

/-- The quotation mark that `c` is. -/
def QuoteMark.ofChar? (c : Char) : Option QuoteMark :=
  match c with
  | '\x27' => some .single
  | '"' => some .double
  | _ => none

/-- The character of an opening or closing bracket. -/
def Bracket.glyph : Bracket → Bool → Char
  | .group, true => '('
  | .group, false => ')'
  | .attributes, true => '['
  | .attributes, false => ']'
  | .expression, true => '{'
  | .expression, false => '}'

/-- The bracket that `c` is, and whether it opens. -/
def Bracket.ofChar? (c : Char) : Option (Bracket × Bool) :=
  match c with
  | '(' => some (.group, true)
  | ')' => some (.group, false)
  | '[' => some (.attributes, true)
  | ']' => some (.attributes, false)
  | '{' => some (.expression, true)
  | '}' => some (.expression, false)
  | _ => none

/-- The character of an operator. -/
def Operator.glyph : Operator → Char
  | .child => '>'
  | .sibling => '+'
  | .climb => '^'
  | .className => '.'
  | .idName => '#'
  | .close => '/'
  | .equal => '='

/-- The operator that `c` is. -/
def Operator.ofChar? (c : Char) : Option Operator :=
  match c with
  | '>' => some .child
  | '+' => some .sibling
  | '^' => some .climb
  | '.' => some .className
  | '#' => some .idName
  | '/' => some .close
  | '=' => some .equal
  | _ => none

theorem QuoteMark.ofChar?_eq_some_iff {c : Char} {mark : QuoteMark} :
    QuoteMark.ofChar? c = some mark ↔ c = mark.glyph := by
  constructor
  · intro h
    unfold QuoteMark.ofChar? at h
    split at h <;> cases h <;> rfl
  · rintro rfl
    cases mark <;> rfl

theorem Bracket.ofChar?_eq_some_iff {c : Char} {bracket : Bracket} {opening : Bool} :
    Bracket.ofChar? c = some (bracket, opening) ↔ c = bracket.glyph opening := by
  constructor
  · intro h
    unfold Bracket.ofChar? at h
    split at h <;> cases h <;> rfl
  · rintro rfl
    cases bracket <;> cases opening <;> rfl

theorem Operator.ofChar?_eq_some_iff {c : Char} {operator : Operator} :
    Operator.ofChar? c = some operator ↔ c = operator.glyph := by
  constructor
  · intro h
    unfold Operator.ofChar? at h
    split at h <;> cases h <;> rfl
  · rintro rfl
    cases operator <;> rfl

end Shorthand
