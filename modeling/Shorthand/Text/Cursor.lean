import Shorthand.Text.Bytes

/-!
# Character cursor

A cursor that walks over a source in whole characters and reports byte offsets, so that every
range it reports can be cut out of the source again. Moving by characters keeps the cursor between
two characters; `seek` may put it anywhere, and a reading that would then have to cut inside a
character, or past the end, has no result.
-/

namespace Shorthand.Text

/-- Decides which characters are consumed, one after the other. -/
structure Matcher where
  /-- Whether `c` is consumed, after the characters that have been asked about before it. -/
  accepts (asked : List Char) (c : Char) : Bool

namespace Matcher

/-- Accepts the characters that satisfy `p`, whatever stands before them. -/
def ofClass (p : Char → Bool) : Matcher :=
  { accepts := fun _ c => p c }

/-- The characters that are accepted at the beginning of a text, behind those asked about before. -/
def accepted (matcher : Matcher) (asked : List Char) : List Char → List Char
  | [] => []
  | c :: cs =>
    if matcher.accepts asked c then c :: accepted matcher (asked ++ [c]) cs else []

end Matcher

/-- A cursor over a source, with the beginning of a marked range. -/
structure Cursor where
  /-- The text under the cursor. -/
  source : List Char
  /-- Byte offset of the cursor. -/
  pos : Nat
  /-- Byte offset at which the range of `current?` begins. -/
  start : Nat
deriving Repr, DecidableEq

namespace Cursor

/-- A cursor at the beginning of `source`. -/
def ofString (source : String) : Cursor :=
  { source := source.toList, pos := 0, start := 0 }

/-! ### Looking -/

/-- Whether the cursor has reached the end. -/
def atEnd (cursor : Cursor) : Bool :=
  decide (width cursor.source ≤ cursor.pos)

/-- What has been read so far. -/
def consumed? (cursor : Cursor) : Option (List Char) :=
  (cut? cursor.pos cursor.source).map Prod.fst

/-- What is left to read. -/
def rest? (cursor : Cursor) : Option (List Char) :=
  (cut? cursor.pos cursor.source).map Prod.snd

/-- The character `n` characters ahead of the cursor. -/
def peekNth? (cursor : Cursor) (n : Nat) : Option (Option Char) :=
  cursor.rest?.map fun rest => rest[n]?

/-- The character under the cursor. -/
def peek? (cursor : Cursor) : Option (Option Char) :=
  cursor.rest?.map List.head?

/-- The character before the cursor. -/
def prev? (cursor : Cursor) : Option (Option Char) :=
  cursor.consumed?.map List.getLast?

/-- The text from byte offset `first` up to byte offset `last`. -/
def slice? (cursor : Cursor) (first last : Nat) : Option (List Char) :=
  (cut? last cursor.source).bind fun (before, _) => (cut? first before).map Prod.snd

/-- The text from the mark up to the cursor. -/
def current? (cursor : Cursor) : Option (List Char) :=
  cursor.slice? cursor.start cursor.pos

/-- The range of the character under the cursor, or an empty range at the end. -/
def span? (cursor : Cursor) : Option Span :=
  cursor.rest?.map fun rest => { offset := cursor.pos, length := width (rest.take 1) }

/-- An error located at the character under the cursor. -/
def fault? {ε : Type} (cursor : Cursor) (build : Span → ε) : Option ε :=
  cursor.span?.map build

/-! ### Moving -/

/-- The cursor after `cs`. -/
def advance (cursor : Cursor) (cs : List Char) : Cursor :=
  { cursor with pos := cursor.pos + width cs }

/-- Consumes the character under the cursor and returns it. -/
def next? (cursor : Cursor) : Option (Option Char × Cursor) :=
  cursor.rest?.map fun rest => (rest.head?, cursor.advance (rest.take 1))

/-- Consumes the character under the cursor if it satisfies `p`, and tells whether it did. -/
def eat? (p : Char → Bool) (cursor : Cursor) : Option (Bool × Cursor) :=
  cursor.rest?.map fun rest =>
    let eaten := (rest.take 1).filter p
    (!eaten.isEmpty, cursor.advance eaten)

/-- Consumes characters as long as they are accepted, and tells whether there were any. -/
def eatAccepted? (matcher : Matcher) (cursor : Cursor) : Option (Bool × Cursor) :=
  cursor.rest?.map fun rest =>
    let eaten := matcher.accepted [] rest
    (!eaten.isEmpty, cursor.advance eaten)

/-- Consumes characters as long as they satisfy `p`, and tells whether there were any. -/
def eatWhile? (p : Char → Bool) (cursor : Cursor) : Option (Bool × Cursor) :=
  cursor.eatAccepted? (.ofClass p)

/-- Begins the marked range at the cursor. -/
def mark (cursor : Cursor) : Cursor :=
  { cursor with start := cursor.pos }

/-- Puts the cursor at byte offset `pos`, whether or not a character begins there. -/
def seek (cursor : Cursor) (pos : Nat) : Cursor :=
  { cursor with pos }

end Cursor

end Shorthand.Text
