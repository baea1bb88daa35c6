import Shorthand.Count
import Shorthand.Options.Variables
import Shorthand.Text.Blank

/-!
# Options of an expansion

What an expansion is told besides the abbreviation: the text to wrap, the values of variables, how
many clones may be made, and two switches.
-/

namespace Shorthand

/-- Text to be wrapped by an abbreviation. -/
inductive SuppliedText
  /-- A single text. -/
  | block (text : String)
  /-- Separate lines; the ones that are not blank drive implicit repeaters. -/
  | lines (lines : List String)
deriving Repr, DecidableEq

namespace SuppliedText

/-- The lines that are not blank. -/
def filledLines (lines : List String) : List String :=
  lines.filter fun line => !Text.isBlankText line

/-- How many clones an implicit repeater makes for the text. A single text does not say. -/
def repeatCount? : SuppliedText → Option Nat
  | .block _ => none
  | .lines all => some (max 1 (filledLines all).length)

/-- The whole text, with a line break between lines. -/
def joined : SuppliedText → String
  | .block text => text
  | .lines all => "\n".intercalate all

/-- The text for the clone at `index`: the line with this index among those that are not blank, or
the whole text if there is none. -/
def line (text : SuppliedText) (index : Nat) : String :=
  match text with
  | .block whole => whole
  | .lines all => (filledLines all)[index]?.getD text.joined

end SuppliedText

/-- The options of an expansion. -/
structure Options where
  /-- The text to wrap. -/
  text : Option SuppliedText := none
  /-- The values of variables. -/
  vars : Variables := ∅
  /-- The greatest number of clones. Neither `none` nor zero sets a limit. -/
  maxRepeat : Option Nat := none
  /-- Whether names may be dotted paths and short attributes may have expressions for values. -/
  jsx : Bool := false
  /-- Whether a link that wraps the text gets its target from it. -/
  href : Bool := false
deriving DecidableEq

namespace Options

/-- How many clones may be made. -/
def repeatLimit (options : Options) : Nat :=
  match options.maxRepeat with
  | none | some 0 => Count.greatest
  | some limit => limit

/-- The text for the clone at an index, or the whole text without one. It is empty if no text is
supplied. -/
def textAt (options : Options) (index : Option Nat) : String :=
  match options.text, index with
  | none, _ => ""
  | some text, some index => text.line index
  | some text, none => text.joined

/-! ### Building options -/

/-- Supplies the text to wrap. -/
def withText (options : Options) (text : SuppliedText) : Options :=
  { options with text := some text }

/-- Sets the value of one variable. -/
def withVariable (options : Options) (name value : String) : Options :=
  { options with vars := options.vars.insert name value }

/-- Sets the values of several variables, one after the other. -/
def withVariables (options : Options) (vars : List (String × String)) : Options :=
  { options with vars := options.vars.insertMany vars }

/-- Limits the number of clones. -/
def withMaxRepeat (options : Options) (maxRepeat : Nat) : Options :=
  { options with maxRepeat := some maxRepeat }

/-- Allows dotted names and expressions, or forbids them. -/
def withJsx (options : Options) (jsx : Bool) : Options :=
  { options with jsx }

/-- Turns link targets on or off. -/
def withHref (options : Options) (href : Bool) : Options :=
  { options with href }

end Options

end Shorthand
