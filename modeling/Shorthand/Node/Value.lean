import Shorthand.Token.Printer

/-!
# Values of nodes

The text of a node or an attribute is a list of texts and fields. Texts next to each other are
merged, and empty ones are left out.

* `concat_push`: appending an entry appends its text.
-/

namespace Shorthand

/-- An entry of a value. -/
inductive Value
  | text (text : String)
  | field (field : Field)
deriving Repr, DecidableEq

namespace Value

/-- The entry as text, with a field as it is written. -/
def toText : Value → String
  | .text s => s
  | .field f => f.text

/-- The text of an entry that is one. -/
def text? : Value → Option String
  | .text s => some s
  | .field _ => none

/-- Whether the entry is a field. -/
def isField : Value → Bool
  | .text _ => false
  | .field _ => true

/-- Entries as one text, with fields as they are written. -/
def concat : List Value → String
  | [] => ""
  | value :: values => value.toText ++ concat values

/-- Appends an entry. Text is merged into a text at the end, and empty text is dropped. -/
def push : List Value → Value → List Value
  | [], .text s => if s.isEmpty then [] else [.text s]
  | [], .field f => [.field f]
  | [.text last], .text s => [.text (last ++ s)]
  | value :: values, more => value :: push values more

/-- Appending an entry appends its text. -/
theorem concat_push (values : List Value) (value : Value) :
    concat (push values value) = concat values ++ value.toText := by
  fun_induction push values value with
  | case1 s hempty => simp [concat, toText, String.isEmpty_iff.1 hempty]
  | case2 => simp [concat, toText]
  | case3 => simp [concat]
  | case4 => simp [concat, toText]
  | case5 value values more _ ih => simp [concat, ih, String.append_assoc]

end Value

end Shorthand
