/-!
# Blank characters

The characters with the Unicode property `White_Space`, the texts that hold nothing else, and
trimming. This set is wider than the white space of the abbreviation notation
(`Shorthand.Text.isSpace`): it decides which supplied lines count as empty and what surrounds a
link text.
-/

namespace Shorthand.Text

/-- Whether `c` has the Unicode property `White_Space`. -/
def isBlank (c : Char) : Bool :=
  let n := c.toNat
  (9 ≤ n && n ≤ 13) || n == 0x20 || n == 0x85 || n == 0xa0 || n == 0x1680 ||
    (0x2000 ≤ n && n ≤ 0x200a) || n == 0x2028 || n == 0x2029 || n == 0x202f || n == 0x205f ||
    n == 0x3000

/-- Whether `text` holds nothing but blank characters. -/
def isBlankText (text : String) : Bool :=
  text.toList.all isBlank

/-- The characters without the blank ones that lead and trail. -/
def trim (cs : List Char) : List Char :=
  ((cs.dropWhile isBlank).reverse.dropWhile isBlank).reverse

end Shorthand.Text
