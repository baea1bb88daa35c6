import Shorthand.Text.Alphabetic

/-!
# Character classes of the notation

The predicates by which an abbreviation is read: digits and letters of the notation itself are
ASCII, while names may use the letters of every script.
-/

namespace Shorthand.Text

/-- An ASCII digit. -/
def isDigit (c : Char) : Bool :=
  c.isDigit

/-- An ASCII letter. -/
def isLetter (c : Char) : Bool :=
  c.isAlpha

/-- White space between tokens: space, tab, non-breaking space and line breaks. -/
def isSpace (c : Char) : Bool :=
  c == ' ' || c == '\t' || c == '\u00a0' || c == '\n' || c == '\r'

/-- A single or double quotation mark. -/
def isQuote (c : Char) : Bool :=
  c == '\x27' || c == '"'

/-- A word character: an underscore, an ASCII letter or digit, or an alphabetic character beyond
ASCII. -/
def isWord (c : Char) : Bool :=
  c == '_' || c.isAlphanum || (decide (128 ≤ c.toNat) && isAlphabetic c)

/-- A character that the name of an element may hold. -/
def isNameChar (c : Char) : Bool :=
  isWord c || c == '-' || c == ':' || c == '!'

end Shorthand.Text
