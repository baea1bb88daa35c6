import Shorthand.Node.Basic

/-!
# Written nodes

A notation for trees of nodes. Every node is a group, so that no operator is needed but those for
children and siblings, and every character of a name or a text is escaped, so that none has a
meaning of its own.

## Main definitions

* `write`: a forest of nodes as an abbreviation;
* `Node.Writable`: the nodes that an abbreviation without repeaters and fields can stand for.
-/

namespace Shorthand

/-! ## Values and attributes -/

namespace Writing

/-- A text with a backslash before every character. -/
def escape (text : String) : List Char :=
  text.toList.flatMap fun c => ['\\', c]

/-- An escaped text begins with a backslash. -/
theorem head?_escape_append {text : String} (h : text ≠ "") (tail : List Char) :
    (escape text ++ tail).head? = some '\\' := by
  obtain ⟨c, cs, hcs⟩ := List.exists_cons_of_ne_nil (mt String.toList_eq_nil_iff.1 h)
  rw [escape, hcs]
  rfl

end Writing

namespace Node.Attribute

/-- What stands before a value that is written in this style. -/
def Style.opening : Style → List Char
  | .raw => []
  | .singleQuote => [QuoteMark.single.glyph]
  | .doubleQuote => [QuoteMark.double.glyph]
  | .expression => ['{']

/-- What stands behind a value that is written in this style. -/
def Style.closing : Style → List Char
  | .raw => []
  | .singleQuote => [QuoteMark.single.glyph]
  | .doubleQuote => [QuoteMark.double.glyph]
  | .expression => ['}']

/-- The mark before the name of an attribute that appears only with a value. -/
def leading (attr : Node.Attribute) : List Char :=
  if attr.implied then ['!'] else []

/-- The mark behind the name of an attribute that is true by being there. -/
def trailing (attr : Node.Attribute) : List Char :=
  if attr.boolean then ['.'] else []

/-- An attribute: its name between its marks, and its value behind an equals sign. -/
def written (attr : Node.Attribute) : List Char :=
  attr.leading ++ (Writing.escape (attr.name.getD "") ++ (attr.trailing ++
    match attr.value with
    | none => []
    | some value =>
      '=' :: (attr.style.opening ++ (Writing.escape (Value.concat value) ++ attr.style.closing))))

end Node.Attribute

namespace Writing

/-- Attributes with a space between each and the next one. -/
def ofAttributes : List Node.Attribute → List Char
  | [] => []
  | [attr] => attr.written
  | attr :: next :: attributes => attr.written ++ ' ' :: ofAttributes (next :: attributes)

/-- The set of the attributes of an element, if there are any. -/
def ofSet (attributes : List Node.Attribute) : List Char :=
  if attributes.isEmpty then [] else '[' :: (ofAttributes attributes ++ [']'])

/-- The text of an element, if it has one. -/
def ofText : Option (List Value) → List Char
  | none => []
  | some value => '{' :: (escape (Value.concat value) ++ ['}'])

/-- The mark of an element that closes itself. -/
def ofClose (selfClosing : Bool) : List Char :=
  if selfClosing then ['/'] else []

/-! ## Nodes -/

mutual

/-- A node in round brackets: its name, its attributes, its text, and the nodes below it. -/
def ofNode : Node → List Char
  | ⟨name, value, attributes, _, selfClosing, children⟩ =>
    '(' :: (escape (name.getD "") ++ (ofSet attributes ++ (ofText value ++ (ofClose selfClosing ++
      ((if children.isEmpty then [] else '>' :: ofNodes children) ++ [')'])))))

/-- Nodes with a plus sign between each and the next one. -/
def ofNodes : List Node → List Char
  | [] => []
  | [node] => ofNode node
  | node :: next :: nodes => ofNode node ++ '+' :: ofNodes (next :: nodes)

end

/-- The nodes below an element, if there are any. -/
def ofBelow (children : List Node) : List Char :=
  if children.isEmpty then [] else '>' :: ofNodes children

theorem ofNode_eq (node : Node) :
    ofNode node = '(' :: (escape (node.name.getD "") ++ (ofSet node.attributes ++
      (ofText node.value ++ (ofClose node.selfClosing ++ (ofBelow node.children ++ [')']))))) := by
  obtain ⟨name, value, attributes, repeater, selfClosing, children⟩ := node
  rw [ofNode, ofBelow]

/-- A forest of nodes as an abbreviation. -/
def write (forest : List Node) : String :=
  String.ofList (ofNodes forest)

end Writing

/-! ## What can be written -/

/-- The value is at most one text, which is not empty. -/
def Value.IsText (value : List Value) : Prop :=
  value = [] ∨ ∃ text, text ≠ "" ∧ value = [.text text]

/-- An attribute that can be written. -/
structure Node.Attribute.Writable (attr : Node.Attribute) : Prop where
  /-- There is a name, and it can be told from the marks around it. -/
  name : ∃ name, attr.name = some name ∧ name ≠ "" ∧ name.toList.head? ≠ some '!' ∧
    name.toList.getLast? ≠ some '.'
  /-- The value is a text. -/
  value : ∀ value, attr.value = some value → Value.IsText value
  /-- Only a value has quotation marks or braces around it. -/
  style : attr.value = none → attr.style = .raw
  /-- A value without quotation marks and braces is not empty. -/
  raw : attr.style = .raw → attr.value ≠ some []

/-- A node that can be written, with the nodes below it. -/
inductive Node.Writable : Node → Prop
  | intro {node : Node}
      (name : ∃ name, node.name = some name ∧ name ≠ "")
      (repeater : node.repeater = none)
      (value : ∀ value, node.value = some value → Value.IsText value)
      (attributes : ∀ attr ∈ node.attributes, attr.Writable)
      (leaf : node.selfClosing = true → node.children = [])
      (children : ∀ child ∈ node.children, child.Writable) :
      node.Writable

end Shorthand
