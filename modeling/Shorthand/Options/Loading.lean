import Shorthand.Document
import Shorthand.Error
import Shorthand.Json.Reader
import Shorthand.Options.Basic
import Shorthand.Toml.Reader

/-!
# Options in documents

Reads options from the entries of a JSON or TOML document. Options that the document leaves out have
their defaults, and entries that are no options are ignored. A JSON document may also list the
values of the options in a fixed order. How the notation itself is read is left to a reader of
documents.
-/

namespace Shorthand.Options

/-- The names of the options, in the order of their values in a list. -/
def keys : List String :=
  ["text", "variables", "maxRepeat", "jsx", "href"]

/-- The text that a document holds. -/
def ofText? : Document → Option String
  | .text value => some value
  | _ => none

/-- The supplied text that a document holds: one text, or a list of lines, or nothing. -/
def ofSuppliedText? : Document → Option (Option SuppliedText)
  | .null => some none
  | .text value => some (some (.block value))
  | .list items => (items.mapM ofText?).map fun lines => some (.lines lines)
  | _ => none

/-- The name and the value of the variable that an entry sets. -/
def ofVariable? (entry : Option String × Document) : Option (String × String) :=
  match entry.1, ofText? entry.2 with
  | some name, some value => some (name, value)
  | _, _ => none

/-- The variables that a document holds. The last value of a name counts. -/
def ofVariables? : Document → Option Variables
  | .table entries => (entries.mapM ofVariable?).map (∅ : Variables).insertMany
  | _ => none

/-- The limit on clones that a document holds, or nothing. -/
def ofLimit? : Document → Option (Option Nat)
  | .null => some none
  | .natural value => if value ≤ Count.greatest then some (some value) else none
  | _ => none

/-- The switch that a document holds. -/
def ofFlag? : Document → Option Bool
  | .bool value => some value
  | _ => none

/-- The options with the one that an entry sets. -/
def set? (options : Options) (entry : Option String × Document) : Option Options :=
  match entry.1 with
  | none => none
  | some key =>
    if key = "text" then (ofSuppliedText? entry.2).map fun text => { options with text }
    else if key = "variables" then
      (ofVariables? entry.2).map fun vars => { options with vars }
    else if key = "maxRepeat" then
      (ofLimit? entry.2).map fun maxRepeat => { options with maxRepeat }
    else if key = "jsx" then (ofFlag? entry.2).map fun jsx => { options with jsx }
    else if key = "href" then (ofFlag? entry.2).map fun href => { options with href }
    else some options

/-- The options that entries set. None of them may be set twice. -/
def ofEntries? (entries : List (Option String × Document)) : Option Options :=
  if keys.all fun key => decide ((entries.map Prod.fst).count (some key) ≤ 1) then
    entries.foldlM set? {}
  else none

/-- The options that a document holds. -/
def ofDocument? : Document → Option Options
  | .table entries => ofEntries? entries
  -- The values of a list are those of the first options; the others have their defaults.
  | .list items =>
    if items.length ≤ keys.length then ofEntries? ((keys.map some).zip items) else none
  | _ => none

/-- The options that a text holds, given a reader of the notation in which it is written. -/
def load (read? : String → Option Document) (source : String) : Except Error Options :=
  match (read? source).bind ofDocument? with
  | some options => .ok options
  | none => .error .optionsRejected

/-- The options that a JSON text holds. -/
def ofJson : String → Except Error Options :=
  load Json.read?

/-- The options that a TOML text holds. -/
def ofToml : String → Except Error Options :=
  load Toml.read?

end Shorthand.Options
