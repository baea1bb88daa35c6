import Shorthand.Toml.Scalar
import Shorthand.Toml.Table
import Shorthand.Toml.Token

/-!
# TOML documents

Reads the tokens of a TOML text, one after the other, into a document.

* `read?`: the document that a text spells.
-/

namespace Shorthand.Toml

/-- A value that is being read. -/
inductive Frame
  /-- The value behind a key on a line of its own. -/
  | line (path : List String)
  /-- A list with the items read so far. -/
  | list (items : List Document)
  /-- An inline table with the entries read so far. -/
  | table (entries : Entries)
  /-- The value behind a key of an inline table. -/
  | entry (entries : Entries) (path : List String)

/-- What a key is read for. -/
inductive Place
  /-- A header, in single brackets or in double ones. -/
  | header (double : Bool)
  /-- A value on a line of its own. -/
  | line
  /-- A value in an inline table. -/
  | entry

/-- What may come next. -/
inductive Phase
  /-- A key, a header, or nothing on this line. -/
  | start
  /-- The end of the line. -/
  | stop
  /-- The rest of a header, behind its first bracket. -/
  | header
  /-- The second closing bracket of a header. -/
  | headerEnd (path : List String)
  /-- The rest of a key, of which the parts in `path` have been read. If it is `named`, the last of
  them has just been read, and what ends the key may follow. -/
  | key (place : Place) (path : List String) (named : Bool)
  /-- The equals sign behind a key of an inline table, after the line of the key has ended. -/
  | keyEnd (path : List String)
  /-- A value, which has to begin on the line that has been reached unless it is `movable`. -/
  | value (movable : Bool)
  /-- The rest of a scalar. -/
  | scalar (text : List Char)
  /-- The time that belongs to a date, or what follows the date. -/
  | time (date : List Char)
  /-- An item or the end of a list. -/
  | item
  /-- A comma or the end of a list. -/
  | itemEnd
  /-- A key or the end of an inline table. -/
  | entry
  /-- A comma or the end of an inline table. -/
  | entryEnd

/-- How far a text has been read. -/
structure State where
  /-- The entries of the document. -/
  root : Entries
  /-- The table that the last header opened. -/
  header : List String
  /-- The values that are being read, the innermost first. -/
  stack : List Frame
  phase : Phase

/-- How deep lists and inline tables may nest. -/
def greatestDepth : Nat := 80

/-- The greatest number of parts of a key. -/
def greatestParts : Nat := 81

/-- Whether a frame belongs to a list or an inline table that is still open. -/
def Frame.isNested : Frame → Bool
  | .line _ => false
  | .list _ | .table _ | .entry _ _ => true

/-- A character of a key without quotation marks. -/
def isBareKeyChar (c : Char) : Bool :=
  c.isAlphanum || c == '-' || c == '_'

namespace State

/-- Nothing has been read. -/
def initial : State :=
  { root := [], header := [], stack := [], phase := .start }

/-- Behind a value. -/
def finish (state : State) (value : Document) : Option State :=
  match state.stack with
  -- A line of its own is never nested, so it is all that is on the stack.
  | [.line path] =>
    (assignUnder? state.header path value state.root).map fun root =>
      { state with root, stack := [], phase := .stop }
  | .list items :: stack =>
    some { state with stack := .list (items ++ [value]) :: stack, phase := .itemEnd }
  | .entry entries path :: stack =>
    (assign? path value .header entries).map fun entries =>
      { state with stack := .table entries :: stack, phase := .entryEnd }
  | _ => none

/-- Inside a list or an inline table that has just been opened, unless it is nested too deep. -/
def enter (state : State) (frame : Frame) (phase : Phase) : Option State :=
  if state.stack.countP Frame.isNested < greatestDepth then
    some { state with stack := frame :: state.stack, phase }
  else none

/-- Behind the first token of a value. -/
def beginValue (state : State) : Token → Option State
  | .string text _ => state.finish (.text text)
  | .openBracket => state.enter (.list []) .item
  | .openBrace => state.enter (.table []) .entry
  | .atom text => some { state with phase := .scalar text }
  | _ => none

/-- Behind the bracket that closes the innermost list. -/
def closeList (state : State) : Option State :=
  match state.stack with
  | .list items :: stack => finish { state with stack } (.list items)
  | _ => none

/-- Behind the brace that closes the innermost inline table. -/
def closeTable (state : State) : Option State :=
  match state.stack with
  | .table entries :: stack => finish { state with stack } (.table (documents entries))
  | _ => none

/-- Behind the equals sign of a key. -/
def assignment (state : State) (place : Place) (path : List String) : Option State :=
  match place, state.stack with
  | .line, [] => some { state with stack := [.line path], phase := .value false }
  | .entry, .table entries :: stack =>
    some { state with stack := .entry entries path :: stack, phase := .value true }
  | _, _ => none

/-- Behind the bracket that closes a header. -/
def closeHeader (state : State) (place : Place) (path : List String) : Option State :=
  match place with
  | .header false =>
    (openTable? path state.root).map fun root =>
      { state with root, header := path, phase := .stop }
  | .header true => some { state with phase := .headerEnd path }
  | _ => none

/-- Behind the line of a key. Only in an inline table its equals sign may stand on a later one. -/
def breakKey (state : State) (place : Place) (path : List String) : Option State :=
  match place with
  | .entry => some { state with phase := .keyEnd path }
  | _ => none

/-- Behind one more part of a key, unless it has too many. -/
def addPart (state : State) (place : Place) (path : List String) (part : String) : Option State :=
  if path.length < greatestParts then
    some { state with phase := .key place (path ++ [part]) true }
  else none

/-- Reads a token of a key. -/
def stepKey (state : State) (place : Place) (path : List String) (named : Bool)
    (token : Token) : Option State :=
  match token, named with
  | .blank _, _ => some { state with phase := .key place path named }
  | .string text false, false => state.addPart place path text
  | .atom text, false =>
    if text.all isBareKeyChar then state.addPart place path (String.ofList text) else none
  | .dot, true => some { state with phase := .key place path false }
  | .equals, true => state.assignment place path
  | .closeBracket, true => state.closeHeader place path
  | .newline, true => state.breakKey place path
  | _, _ => none

/-- Whether a token separates the values of a list or an inline table no more than a blank does. -/
def isLayout : Token → Bool
  | .blank _ | .newline => true
  | _ => false

/-- Reads a token behind a value. -/
def stepEnd (state : State) (token : Token) : Option State :=
  match state.phase, token with
  | .stop, .blank _ => some state
  | .stop, .newline => some { state with phase := .start }
  | .itemEnd, .comma => some { state with phase := .item }
  | .itemEnd, .closeBracket => state.closeList
  | .itemEnd, token => if isLayout token then some state else none
  | .entryEnd, .comma => some { state with phase := .entry }
  | .entryEnd, .closeBrace => state.closeTable
  | .entryEnd, token => if isLayout token then some state else none
  | _, _ => none

/-- Reads a token behind a scalar. -/
def stepScalarEnd (state : State) (text : List Char) (token : Token) : Option State :=
  ((scalar? text).bind state.finish).bind fun state => state.stepEnd token

/-- Reads one more token. -/
def step (state : State) (token : Token) : Option State :=
  match state.phase, token with
  | .start, .openBracket => some { state with phase := .header }
  | .start, token => if isLayout token then some state else state.stepKey .line [] false token
  | .header, .openBracket => some { state with phase := .key (.header true) [] false }
  | .header, token => state.stepKey (.header false) [] false token
  | .headerEnd path, .closeBracket =>
    (openElement? path state.root).map fun root =>
      { state with root, header := path, phase := .stop }
  | .headerEnd _, _ => none
  | .key place path named, token => state.stepKey place path named token
  | .keyEnd path, .equals => state.assignment .entry path
  | .keyEnd _, token => if isLayout token then some state else none
  | .value _, .blank _ | .value true, .newline => some state
  | .value _, token => state.beginValue token
  -- A dot separates the parts of a key, but within a scalar it is one of its characters.
  | .scalar text, .atom more => some { state with phase := .scalar (text ++ more) }
  | .scalar text, .dot => some { state with phase := .scalar (text ++ ['.']) }
  -- A single space may stand between a date and its time.
  | .scalar text, .blank [' '] =>
    if isDate text then some { state with phase := .time text }
    else state.stepScalarEnd text (.blank [' '])
  | .scalar text, token => state.stepScalarEnd text token
  | .time date, .atom more =>
    if more.head?.any Char.isDigit then some { state with phase := .scalar (date ++ ' ' :: more) }
    else none
  | .time date, token => state.stepScalarEnd date token
  | .item, .closeBracket => state.closeList
  | .item, token => if isLayout token then some state else state.beginValue token
  | .entry, .closeBrace => state.closeTable
  | .entry, token => if isLayout token then some state else state.stepKey .entry [] false token
  | .stop, token | .itemEnd, token | .entryEnd, token => state.stepEnd token

/-- The document, if a line has just ended. -/
def document? (state : State) : Option Document :=
  match state.phase with
  | .start => some (.table (documents state.root))
  | _ => none

end State

/-- The document that tokens form. The last line need not be ended. -/
def ofTokens? (tokens : List Token) : Option Document :=
  ((tokens ++ [Token.newline]).foldlM State.step State.initial).bind State.document?

/-- The characters of a text without the byte order mark that may stand in front. -/
def withoutMark (cs : List Char) : List Char :=
  if cs.head? = some '\ufeff' then cs.tail else cs

/-- The document that a TOML text spells. -/
def read? (text : String) : Option Document :=
  (tokens? (withoutMark text.toList)).bind ofTokens?

end Shorthand.Toml
