import Shorthand.Expansion.Scope
import Shorthand.Node.Basic
import Shorthand.Statement.Basic
import Shorthand.Statement.Value

/-!
# Resolved tokens

Turns the tokens of names, values and attributes into text. In values tab stops stay fields, so that
an editor can find them; in names they are text. On the way it is noted whether supplied text has
been rendered.
-/

namespace Shorthand

open Statement (dropFinal)

/-! ### Notes -/

/-- Renders what there is, if anything. Each rendering takes over the note from before. -/
def noteOption {α β : Type} (render : α → Bool → β × Bool) : Option α → Bool → Option β × Bool
  | none, noted => (none, noted)
  | some written, noted => (render written noted).map some id

/-- Renders one after the other. Each rendering takes over the note from before. -/
def noteAll {α β : Type} (render : α → Bool → β × Bool) : List α → Bool → List β × Bool
  | [], noted => ([], noted)
  | written :: others, noted =>
    let (rendered, noted) := render written noted
    let (more, noted) := noteAll render others noted
    (rendered :: more, noted)

/-! ### Tokens -/

namespace Scope

/-- A token as text. -/
def render (scope : Scope) : Token.Kind → String
  | .literal value => value
  | .blank value => value
  | .numbering numbering =>
    String.ofList (Count.paddedDigits numbering.size (scope.number numbering))
  | .placeholder => scope.suppliedText
  -- A variable without a value stands for its own name.
  | .field (.reference name) =>
    if name.isEmpty then "" else (scope.options.vars.get? name).getD name
  | kind => kind.text

/-- A token as text, and whether supplied text has been rendered by then, given whether it had been
before. -/
def renderNoting (scope : Scope) (kind : Token.Kind) (noted : Bool) : String × Bool :=
  match kind with
  | .placeholder => (scope.suppliedText, true)
  | kind => (scope.render kind, noted)

/-- The entry that a token becomes, and whether supplied text has been rendered by then. A tab stop
is not rendered. -/
def entryNoting (scope : Scope) (kind : Token.Kind) (noted : Bool) : Value × Bool :=
  match kind with
  | .field (.tabStop index placeholder) => (.field (.tabStop index placeholder), noted)
  | kind => ((scope.renderNoting kind noted).map .text id)

/-- Tokens as the text of a name, behind `text`. -/
def renderNameNoting (scope : Scope) : List Token → String → Bool → String × Bool
  | [], text, noted => (text, noted)
  | token :: tokens, text, noted =>
    let (more, noted) := scope.renderNoting token.kind noted
    renderNameNoting scope tokens (text ++ more) noted

/-- Tokens as a value, behind `values`. -/
def renderValueNoting (scope : Scope) : List Token → List Value → Bool → List Value × Bool
  | [], values, noted => (values, noted)
  | token :: tokens, values, noted =>
    let (entry, noted) := scope.entryNoting token.kind noted
    renderValueNoting scope tokens (Value.push values entry) noted

end Scope

/-! ### Attributes and elements -/

/-- How an attribute with a value between these quotation marks was written. -/
def QuoteMark.style : QuoteMark → Node.Attribute.Style
  | .single => .singleQuote
  | .double => .doubleQuote

namespace Statement

/-- How a value was written, and its tokens without the quotation marks or braces around it. A
closing one may be missing. -/
def unwrap : List Token → Node.Attribute.Style × List Token
  | [] => (.raw, [])
  | first :: inner =>
    match first.kind with
    | .quote mark => (mark.style, dropFinal (.quote mark) inner)
    | .bracket .expression true => (.expression, dropFinal (.bracket .expression false) inner)
    | _ => (.raw, first :: inner)

/-- The marks of an attribute name. -/
structure MarkedName where
  /-- The name without its marks. -/
  name : List Char
  /-- Whether it ends in a dot. -/
  boolean : Bool
  /-- Whether it begins with an exclamation mark. -/
  implied : Bool
deriving Repr, DecidableEq

/-- Takes one exclamation mark off the beginning of a name, and then one dot off its end. -/
def MarkedName.ofChars (written : List Char) : MarkedName :=
  let implied := written.head? == some '!'
  let name := if implied then written.tail else written
  let boolean := name.getLast? == some '.'
  { name := if boolean then name.dropLast else name, boolean, implied }

end Statement

namespace Scope

/-- An attribute of the output. A name of which nothing but marks is left is none. -/
def renderAttributeNoting (scope : Scope) (attr : Statement.Attribute) (noted : Bool) :
    Node.Attribute × Bool :=
  let (written, noted) := noteOption (scope.renderNameNoting · "") attr.name noted
  let marked := Statement.MarkedName.ofChars (written.getD "").toList
  let unwrapped := attr.value.map Statement.unwrap
  let (value, noted) := noteOption (fun value => scope.renderValueNoting value.2 []) unwrapped noted
  ({ name := if marked.name.isEmpty then none else some (String.ofList marked.name)
     value
     -- The braces of a short attribute have been taken off already.
     style := (unwrapped.map fun (style, _) => if attr.expression then .expression else style).getD
       .raw
     boolean := marked.boolean
     implied := marked.implied }, noted)

/-- The nodes of one clone of an element, given the nodes below it and whether supplied text has
been rendered in these. A plain text cannot hold nodes, nor can an element that closes itself; there
they become siblings. -/
def nodesNoting (scope : Scope) (head : Statement.Element) (clone : Option Repeater)
    (below : List Node) (notedBelow : Bool) : List Node × Bool :=
  let (name, noted) := noteOption (scope.renderNameNoting · "") head.name false
  let (value, noted) := noteOption (scope.renderValueNoting · []) head.value noted
  let (attributes, noted) :=
    noteAll scope.renderAttributeNoting head.attributes (noted || notedBelow)
  let node : Node :=
    { name, value, attributes, repeater := clone, selfClosing := head.selfClosing, children := [] }
  if node.isPlainText || node.selfClosing then (node :: below, noted)
  else ([{ node with children := below }], noted)

end Scope

end Shorthand
