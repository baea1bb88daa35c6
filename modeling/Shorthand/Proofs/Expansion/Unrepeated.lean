import Shorthand.Proofs.Expansion.Unrolled

/-!
# Statements without repeaters

A statement without a repeater is unrolled once, and makes no clone. A group without a repeater
leaves nothing behind but the nodes of its statements.

## Main definitions

* `StandsFor`: a statement whose nodes depend neither on the options nor on clones;
* `Expands`: statements whose nodes depend neither on the options nor on clones;
* `RendersAs`: an element that is rendered as a node, whatever it is resolved against.

## Main results

* `unroll_group_none`: a group is unrolled to the nodes of its statements;
* `standsFor_element`: an element with a name stands for a node;
* `Expands.convert_eq`: without supplied text, this is what the statements are converted to.
-/

namespace Shorthand.Statement

/-- In every scope, and however many clones have been made, the statement is unrolled to these
nodes. -/
def StandsFor (statement : Statement) (nodes : List Node) : Prop :=
  ∀ scope made, unroll scope made statement = (nodes, made)

/-- In every scope, and however many clones have been made, the statements are unrolled to these
nodes. -/
def Expands (statements : List Statement) (nodes : List Node) : Prop :=
  ∀ scope made, unrollAll scope made statements = (nodes, made)

variable {statement : Statement} {statements : List Statement} {nodes more : List Node}

theorem Expands.nil : Expands [] [] := by
  intro scope made
  rw [unrollAll]

/-- Statements are unrolled one after the other. -/
theorem Expands.cons (h : StandsFor statement nodes) (hmore : Expands statements more) :
    Expands (statement :: statements) (nodes ++ more) := by
  intro scope made
  rw [unrollAll, h scope made]
  dsimp only
  rw [hmore scope made]

/-- Nodes that are no clones of a group stay as they are. -/
theorem markClone_none (nodes : List Node) : markClone none nodes = nodes := by
  have hsame (node : Node) : { node with repeater := node.repeater.or none } = node := by
    obtain ⟨name, value, attributes, repeater, selfClosing, children⟩ := node
    rw [Option.or_none]
  rw [markClone, List.map_congr_left fun node _ => hsame node, List.map_id']

/-- A group without a repeater is unrolled to the nodes of its statements. -/
theorem unroll_group_none (scope : Scope) (made : Nat) (children : List Statement) :
    unroll scope made (.group none children) = unrollAll scope made children := by
  rw [unroll, repeated]
  dsimp only
  rw [markClone_none]

/-- A group stands for the nodes of its statements. -/
theorem standsFor_group (h : Expands statements nodes) :
    StandsFor (.group none statements) nodes := by
  intro scope made
  rw [unroll_group_none, h scope made]

/-- An element without a repeater that is rendered as the node, in every scope. -/
structure RendersAs (head : Element) (node : Node) : Prop where
  repeater : head.repeater = none
  selfClosing : head.selfClosing = node.selfClosing
  name : ∀ scope : Scope, head.name.map scope.renderName = node.name
  value : ∀ scope : Scope, head.value.map scope.renderValue = node.value
  attributes : ∀ scope : Scope, head.attributes.map scope.renderAttribute = node.attributes

/-- An element with a name stands for a node, with the nodes of the statements below it. One that
closes itself has none. -/
theorem standsFor_element {head : Element} {node : Node} (h : RendersAs head node) {name : String}
    (hname : node.name = some name) (hnone : node.repeater = none)
    (hleaf : node.selfClosing = true → node.children = [])
    (hbelow : Expands statements node.children) : StandsFor (.element head statements) [node] := by
  intro scope made
  obtain ⟨hrepeater, hclosing, hname', hvalue, hattributes⟩ := h
  obtain ⟨name, value, attributes, repeater, selfClosing, children⟩ := node
  dsimp only at *
  rw [unroll, hrepeater, repeated]
  dsimp only
  rw [hbelow scope made]
  -- Whatever stands below an element that closes itself is dropped, but then that is nothing.
  by_cases hclose : selfClosing = true
  · simp [Scope.nodes, Node.isPlainText, Node.isText, hname', hname, hvalue, hattributes, hclosing,
      hnone, hclose, hleaf hclose]
  · simp [Scope.nodes, Node.isPlainText, Node.isText, hname', hname, hvalue, hattributes, hclosing,
      hnone, hclose]

/-- Without supplied text, statements are converted to the nodes that they are unrolled to. -/
theorem Expands.convert_eq {options : Options} (h : Expands statements nodes)
    (htext : options.text = none) : convert options statements = nodes := by
  rw [convert_eq_unrollAll htext, h { options } 0]

end Shorthand.Statement
