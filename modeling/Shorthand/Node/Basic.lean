import Shorthand.Node.Value

/-!
# Output nodes

The tree that an abbreviation stands for: nodes with names, attributes and texts, in which every
repetition is written out.
-/

namespace Shorthand

/-- How the value of an attribute was written. -/
inductive Node.Attribute.Style
  | raw
  | singleQuote
  | doubleQuote
  /-- In braces. -/
  | expression
deriving Repr, DecidableEq

/-- An attribute of a node. -/
structure Node.Attribute where
  /-- The name, or none where the value is for the default attribute of the element. -/
  name : Option String := none
  value : Option (List Value) := none
  style : Node.Attribute.Style := .raw
  /-- Whether the attribute is true by being there. -/
  boolean : Bool := false
  /-- Whether the attribute is to appear only with a value. -/
  implied : Bool := false
deriving Repr, DecidableEq

/-- An element or a text of the output. -/
structure Node where
  /-- The name, or none for a text and for an element whose name is left open. -/
  name : Option String
  /-- The text. -/
  value : Option (List Value)
  attributes : List Node.Attribute
  /-- The clone of a repeater that the node is. -/
  repeater : Option Repeater
  /-- Whether the node was marked as closing itself. -/
  selfClosing : Bool
  children : List Node
deriving Repr

/-- The value as text. -/
def Node.Attribute.text? (attr : Node.Attribute) : Option String :=
  attr.value.map Value.concat

namespace Node

mutual

/-- Whether two nodes are the same. -/
def decEq : (node other : Node) → Decidable (node = other)
  | ⟨name, value, attributes, repeater, selfClosing, children⟩,
      ⟨name', value', attributes', repeater', selfClosing', children'⟩ =>
    have := decEqAll children children'
    decidable_of_iff (name = name' ∧ value = value' ∧ attributes = attributes' ∧
      repeater = repeater' ∧ selfClosing = selfClosing' ∧ children = children')
      (by rw [mk.injEq])

/-- Whether two lists of nodes are the same. -/
def decEqAll : (nodes others : List Node) → Decidable (nodes = others)
  | [], [] => .isTrue rfl
  | node :: nodes, other :: others =>
    have := decEq node other
    have := decEqAll nodes others
    decidable_of_iff (node = other ∧ nodes = others) (by rw [List.cons.injEq])
  | [], _ :: _ => .isFalse nofun
  | _ :: _, [] => .isFalse nofun

end

instance : DecidableEq Node := decEq

/-- The value as text, with fields as they are written. -/
def text? (node : Node) : Option String :=
  node.value.map Value.concat

/-- Whether the node carries nothing but text: it has no name and no attributes. -/
def isText (node : Node) : Bool :=
  node.name.isNone && node.attributes.isEmpty

/-- Whether the node carries nothing but a text without fields. -/
def isPlainText (node : Node) : Bool :=
  node.isText && node.value.any fun value => !value.any Value.isField

/-- The first attribute with the given name. -/
def attribute? (node : Node) (name : String) : Option Node.Attribute :=
  node.attributes.find? fun attr => attr.name == some name

/-! ### The last leaf -/

mutual

/-- Changes the leaf that is reached from `node` by going to the last child again and again. -/
def modifyLeaf (f : Node → Node) : Node → Node
  | ⟨name, value, attributes, repeater, selfClosing, []⟩ =>
    f ⟨name, value, attributes, repeater, selfClosing, []⟩
  | ⟨name, value, attributes, repeater, selfClosing, child :: children⟩ =>
    ⟨name, value, attributes, repeater, selfClosing, modifyLastLeaf f (child :: children)⟩

/-- Changes the leaf that is reached from the last of `nodes`, if there are any. -/
def modifyLastLeaf (f : Node → Node) : List Node → List Node
  | [] => []
  | [node] => [modifyLeaf f node]
  | node :: next :: nodes => node :: modifyLastLeaf f (next :: nodes)

end

/-- The node with `text` at the end of its value. -/
def appendText (text : String) (node : Node) : Node :=
  { node with value := some (Value.push (node.value.getD []) (.text text)) }

end Node

end Shorthand
