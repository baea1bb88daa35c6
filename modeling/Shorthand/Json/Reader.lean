import Shorthand.Document
import Shorthand.Json.Token

/-!
# JSON documents

Reads the tokens of a JSON text, one after the other, into a document. What is open is kept on a
stack, so that documents may be nested to any depth.

* `read?`: the document that a text spells.
-/

namespace Shorthand.Json

/-- A list or a table that is being read. -/
inductive Frame
  /-- A list with the items read so far. -/
  | list (items : List Document)
  /-- A table with the entries read so far. -/
  | table (entries : List (Option String × Document))
  /-- The value behind a key of a table. -/
  | entry (entries : List (Option String × Document)) (key : Option String)

/-- What may come next. -/
inductive Phase
  /-- A value. -/
  | value
  /-- A value or the end of the list, behind its opening bracket. -/
  | firstItem
  /-- A key or the end of the table, behind its opening bracket. -/
  | firstKey
  /-- A key. -/
  | key
  /-- The colon behind a key. -/
  | colon
  /-- A comma or the end of the innermost list or table, behind one of its values. -/
  | separator
  /-- Nothing: the document is complete. -/
  | complete (document : Document)

/-- How far a document has been read. -/
structure State where
  /-- The open lists and tables, the innermost first. -/
  stack : List Frame
  phase : Phase

namespace State

/-- Nothing has been read. -/
def start : State :=
  { stack := [], phase := .value }

/-- Behind a value. -/
def finish (stack : List Frame) (value : Document) : Option State :=
  match stack with
  | [] => some { stack := [], phase := .complete value }
  | .list items :: stack => some { stack := .list (items ++ [value]) :: stack, phase := .separator }
  | .entry entries key :: stack =>
    some { stack := .table (entries ++ [(key, value)]) :: stack, phase := .separator }
  | .table _ :: _ => none

/-- Behind the first token of a value. -/
def beginValue (stack : List Frame) : Token → Option State
  | .openList => some { stack := .list [] :: stack, phase := .firstItem }
  | .openTable => some { stack := .table [] :: stack, phase := .firstKey }
  | .null => finish stack .null
  | .bool value => finish stack (.bool value)
  | .number (some value) => finish stack (.natural value)
  | .number none => finish stack .other
  | .string text? => finish stack (.ofText? text?)
  | _ => none

/-- Behind the bracket that closes the innermost list or table. -/
def close (stack : List Frame) : Token → Option State
  | .closeList =>
    match stack with
    | .list items :: stack => finish stack (.list items)
    | _ => none
  | .closeTable =>
    match stack with
    | .table entries :: stack => finish stack (.table entries)
    | _ => none
  | _ => none

/-- Behind a key. -/
def beginEntry (stack : List Frame) (token : Token) : Option State :=
  match stack, token with
  | .table entries :: stack, .string key =>
    some { stack := .entry entries key :: stack, phase := .colon }
  | _, _ => none

/-- Behind a comma. -/
def continue? (stack : List Frame) : Option State :=
  match stack with
  | .list _ :: _ => some { stack, phase := .value }
  | .table _ :: _ => some { stack, phase := .key }
  | _ => none

/-- Reads one more token. -/
def step (state : State) (token : Token) : Option State :=
  match state.phase with
  | .value => beginValue state.stack token
  -- Only behind the opening bracket may a list or a table end without a value.
  | .firstItem =>
    if token = .closeList then close state.stack token else beginValue state.stack token
  | .firstKey =>
    if token = .closeTable then close state.stack token else beginEntry state.stack token
  | .key => beginEntry state.stack token
  | .colon => if token = .colon then some { state with phase := .value } else none
  | .separator =>
    if token = .comma then continue? state.stack else close state.stack token
  | .complete _ => none

/-- The document, if it is complete. -/
def document? (state : State) : Option Document :=
  match state.phase with
  | .complete document => some document
  | _ => none

end State

/-- The document that tokens form. -/
def ofTokens? (tokens : List Token) : Option Document :=
  (tokens.foldlM State.step State.start).bind State.document?

/-- The document that a JSON text spells. -/
def read? (text : String) : Option Document :=
  (tokens? text.toList).bind ofTokens?

end Shorthand.Json
