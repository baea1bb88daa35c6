import Shorthand.Token.Basic

/-!
# Statements

The structure of an abbreviation: elements and groups, nested, with names, attributes and texts
still in tokens.
-/

namespace Shorthand

/-- An attribute as it is written. -/
structure Statement.Attribute where
  /-- The tokens of the name. A quoted value on its own has none. -/
  name : Option (List Token) := none
  /-- The tokens of the value, with the quotation marks or braces around it. -/
  value : Option (List Token) := none
  /-- Whether the value is an expression behind a short attribute mark. -/
  expression : Bool := false
deriving Repr, DecidableEq

/-- An element as it is written, apart from the statements below it. -/
structure Statement.Element where
  name : Option (List Token) := none
  attributes : List Statement.Attribute := []
  /-- The tokens of the text, without the braces around it. -/
  value : Option (List Token) := none
  repeater : Option Repeater := none
  /-- Whether the element is marked as closing itself. -/
  selfClosing : Bool := false
deriving Repr, DecidableEq

/-- An element or a group, with the statements below it. -/
inductive Statement
  | element (head : Statement.Element) (children : List Statement)
  | group (repeater : Option Repeater) (children : List Statement)
deriving Repr

namespace Statement

mutual

/-- Whether two statements are the same. -/
def decEq : (statement other : Statement) → Decidable (statement = other)
  | .element head children, .element head' children' =>
    have := decEqAll children children'
    decidable_of_iff (head = head' ∧ children = children') (by rw [element.injEq])
  | .group repeater children, .group repeater' children' =>
    have := decEqAll children children'
    decidable_of_iff (repeater = repeater' ∧ children = children') (by rw [group.injEq])
  | .element _ _, .group _ _ => .isFalse nofun
  | .group _ _, .element _ _ => .isFalse nofun

/-- Whether two lists of statements are the same. -/
def decEqAll : (statements others : List Statement) → Decidable (statements = others)
  | [], [] => .isTrue rfl
  | statement :: statements, other :: others =>
    have := decEq statement other
    have := decEqAll statements others
    decidable_of_iff (statement = other ∧ statements = others) (by rw [List.cons.injEq])
  | [], _ :: _ => .isFalse nofun
  | _ :: _, [] => .isFalse nofun

end

instance : DecidableEq Statement := decEq

/-- The repeater that the statement carries itself. -/
def repeater : Statement → Option Repeater
  | .element head _ => head.repeater
  | .group repeater _ => repeater

/-- The statements below it. -/
def children : Statement → List Statement
  | .element _ children => children
  | .group _ children => children

/-- The statement with one more statement below it, behind those that are there. -/
def push (statement child : Statement) : Statement :=
  match statement with
  | .element head children => .element head (children ++ [child])
  | .group repeater children => .group repeater (children ++ [child])

end Statement

end Shorthand
