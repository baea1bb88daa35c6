import Shorthand.Expansion.Unrolling
import Shorthand.Link
import Shorthand.Statement.Parser

/-!
# Expansion

From an abbreviation to the tree of nodes that it stands for.
-/

namespace Shorthand

/-- The attributes with a link target: the first `href` without a value gets it, and where there is
no `href` one is added. -/
def Node.fillHref (target : List Value) : List Node.Attribute → List Node.Attribute
  | [] => [{ name := some "href", value := some target, style := .doubleQuote }]
  | attr :: attributes =>
    if attr.name = some "href" then
      { attr with value := some (attr.value.getD target) } :: attributes
    else attr :: fillHref target attributes

/-- The node with the link target that fits the text it wraps. -/
def Node.insertHref (text : String) (node : Node) : Node :=
  let target := Value.push [] (.text (Link.hrefFor text))
  { node with attributes := fillHref target node.attributes }

/-- The node that gets the whole supplied text. A link gets its target along with it, if that is
asked for. -/
def Node.wrapText (href : Bool) (text : String) (node : Node) : Node :=
  let node := node.appendText text
  if href && node.name == some "a" then node.insertHref text else node

/-- The output, given its nodes and whether supplied text has found its place in them. Otherwise the
text goes to the last leaf. -/
def Options.insertWhole (options : Options) (noted : Bool) (nodes : List Node) : List Node :=
  match options.text with
  | none => nodes
  | some text =>
    if noted then nodes
    else Node.modifyLastLeaf (Node.wrapText options.href text.joined) nodes

/-- The nodes of a tree of statements. -/
def convert (options : Options) (statements : List Statement) : List Node :=
  let converted := Statement.unrollAllNoting { options } 0 statements
  options.insertWhole converted.noted converted.nodes

/-- The nodes that an abbreviation stands for. -/
def expand (options : Options) (abbreviation : String) : Except Error (List Node) :=
  (Statement.parse options.jsx abbreviation).map (convert options)

end Shorthand
