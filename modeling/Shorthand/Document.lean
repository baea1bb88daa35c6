/-!
# Documents

What a document with options holds, whether it was written in JSON or in TOML.
-/

namespace Shorthand

/-- The contents of a document. -/
inductive Document
  | null
  | bool (value : Bool)
  /-- A natural number that is written as an integer. -/
  | natural (value : Nat)
  | text (value : String)
  | list (items : List Document)
  /-- Entries in the order in which they are written. A key that is no text, since it holds half of
  a surrogate pair, is none. -/
  | table (entries : List (Option String × Document))
  /-- A value that no option takes: any other number, or a string that is no text. -/
  | other
deriving Repr, BEq

namespace Document

/-- The text of a string, if it is one. -/
def ofText? : Option String → Document
  | some value => .text value
  | none => .other

end Document

end Shorthand
