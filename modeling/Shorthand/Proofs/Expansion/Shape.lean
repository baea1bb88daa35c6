import Shorthand.Proofs.Expansion.Copies
import Shorthand.Proofs.Expansion.Values

/-!
# The shape of the output

The shape of a node is what is left of it when what its texts say is taken away: how it is repeated,
whether it has a name and a value, the fields in the value, and the nodes below it. Supplied text
and values of variables have no part in it. They are put into names, values and attributes as they
are, and nothing in them is read as a part of an abbreviation.

Where the output branches on a text, it asks no more than whether there is one: a text supplies
lines by their number, and a plain text is one that no field is in.

## Main definitions

* `Node.shape`, `Node.shapeAll`: the shape of a node and of a forest;
* `SuppliedText.Alike`: supplied texts that ask for equally many clones.

## Main results

* `Node.shapeAll_nodes`: what an element is rendered to has the same shape in all scopes;
* `Node.shapeAll_modifyLastLeaf`: text that is added to the last leaf changes the shape in one way;
* `Statement.shapes_unroll`: unrolling a statement for two texts keeps in step;
* `Statement.shapeAll_convert`: the output for two texts has one shape.
-/

namespace Shorthand

/-! ## Shapes -/

/-- What is left of a node when what its texts say is taken away. -/
structure Shape where
  /-- Whether the node has a name. -/
  named : Bool
  /-- The fields in the value, if there is one. -/
  fields : Option (List Field)
  repeater : Option Repeater
  selfClosing : Bool
  children : List Shape

namespace Node

mutual

/-- The shape of a node. -/
def shape : Node → Shape
  | ⟨name, value, _, repeater, selfClosing, children⟩ =>
    ⟨name.isSome, value.map Value.fields, repeater, selfClosing, shapeAll children⟩

/-- The shapes of the trees of a forest. -/
def shapeAll : List Node → List Shape
  | [] => []
  | node :: nodes => shape node :: shapeAll nodes

end

theorem shape_eq (node : Node) :
    shape node = ⟨node.name.isSome, node.value.map Value.fields, node.repeater, node.selfClosing,
      shapeAll node.children⟩ := by
  obtain ⟨name, value, attributes, repeater, selfClosing, children⟩ := node
  rw [shape]

@[simp]
theorem shapeAll_nil : shapeAll [] = [] := by rw [shapeAll]

@[simp]
theorem shapeAll_cons (node : Node) (nodes : List Node) :
    shapeAll (node :: nodes) = shape node :: shapeAll nodes := by
  rw [shapeAll]

theorem shapeAll_eq_map (nodes : List Node) : shapeAll nodes = nodes.map shape := by
  induction nodes with
  | nil => rw [shapeAll_nil, List.map_nil]
  | cons node nodes ih => rw [shapeAll_cons, ih, List.map_cons]

theorem shapeAll_append (nodes more : List Node) :
    shapeAll (nodes ++ more) = shapeAll nodes ++ shapeAll more := by
  rw [shapeAll_eq_map, shapeAll_eq_map, shapeAll_eq_map, List.map_append]

/-! ## Elements -/

/-- Whether an element becomes a plain text does not depend on what it is resolved against. -/
theorem isPlainText_single (scope scope' : Scope) (head : Statement.Element)
    (clone : Option Repeater) :
    (scope.single head clone).isPlainText = (scope'.single head clone).isPlainText := by
  have htext : (scope.single head clone).isText = (scope'.single head clone).isText := by
    unfold isText Scope.single
    rw [Option.isNone_map, Option.isNone_map, List.isEmpty_map, List.isEmpty_map]
  unfold isPlainText
  rw [htext]
  congr 1
  cases hvalue : head.value with
  | none => simp [Scope.single, hvalue]
  | some tokens =>
    simp only [Scope.single, hvalue, Option.map_some, Option.any_some]
    rw [Value.any_isField, Value.any_isField, Scope.fields_renderValue, Scope.fields_renderValue]

/-- The node of an element has the same shape in all scopes. -/
theorem shape_single (scope scope' : Scope) (head : Statement.Element) (clone : Option Repeater) :
    shape (scope.single head clone) = shape (scope'.single head clone) := by
  have hname : (head.name.map scope.renderName).isSome = (head.name.map scope'.renderName).isSome :=
    by rw [Option.isSome_map, Option.isSome_map]
  have hfields : (head.value.map scope.renderValue).map Value.fields =
      (head.value.map scope'.renderValue).map Value.fields := by
    rw [Option.map_map, Option.map_map]
    congr 1
    funext tokens
    exact (scope.fields_renderValue tokens).trans (scope'.fields_renderValue tokens).symm
  simp only [shape_eq, Scope.single, hname, hfields]

/-- The nodes of an element have the same shape in all scopes, if those below it have. -/
theorem shapeAll_nodes (scope scope' : Scope) (head : Statement.Element) (clone : Option Repeater)
    {below below' : List Node} (hbelow : shapeAll below = shapeAll below') :
    shapeAll (scope.nodes head clone below) = shapeAll (scope'.nodes head clone below') := by
  have hsingle := shape_single scope scope' head clone
  rw [Scope.nodes_eq, Scope.nodes_eq, isPlainText_single scope scope']
  split
  next => rw [shapeAll_cons, shapeAll_cons, hsingle, hbelow]
  next =>
    rw [shape_eq, shape_eq, Shape.mk.injEq] at hsingle
    obtain ⟨hnamed, hfields, hrepeater, hclosing, -⟩ := hsingle
    simp only [shapeAll_cons, shapeAll_nil, shape_eq, hnamed, hfields, hrepeater, hclosing, hbelow]

/-! ## Late changes -/

/-- Text that is appended leaves the fields, but from then on there is a value. -/
theorem shape_appendText (text : String) (node : Node) :
    shape (node.appendText text) =
      { shape node with fields := some ((shape node).fields.getD []) } := by
  have hfields : Value.fields (Value.push (node.value.getD []) (.text text)) =
      (node.value.map Value.fields).getD [] := by
    rw [Value.fields_push, Value.field?, Option.toList_none, List.append_nil]
    cases node.value with
    | none => rfl
    | some value => rfl
  rw [shape_eq, shape_eq, appendText]
  dsimp only
  rw [Option.map_some, hfields]

/-- A link target is not a part of the shape. -/
theorem shape_wrapText (href : Bool) (text : String) (node : Node) :
    shape (node.wrapText href text) = shape (node.appendText text) := by
  unfold wrapText
  dsimp only
  split
  next => rw [shape_eq, insertHref, shape_eq]
  next => rfl

section LastLeaf

variable {f f' : Node → Node}

mutual

/-- Changes that make one shape of leaves of one shape do so with the last leaves of trees of one
shape. -/
theorem shape_modifyLeaf
    (hf : ∀ node node' : Node, shape node = shape node' → shape (f node) = shape (f' node')) :
    ∀ node node' : Node, shape node = shape node' →
      shape (modifyLeaf f node) = shape (modifyLeaf f' node')
  | ⟨name, value, attributes, repeater, selfClosing, []⟩,
    ⟨name', value', attributes', repeater', selfClosing', []⟩, h => by
    rw [modifyLeaf, modifyLeaf]
    exact hf _ _ h
  | ⟨name, value, attributes, repeater, selfClosing, child :: children⟩,
    ⟨name', value', attributes', repeater', selfClosing', child' :: children'⟩, h => by
    rw [shape, shape, Shape.mk.injEq] at h
    obtain ⟨hnamed, hfields, hrepeater, hclosing, hchildren⟩ := h
    rw [modifyLeaf, modifyLeaf, shape, shape, hnamed, hfields, hrepeater, hclosing,
      shapeAll_modifyLastLeaf hf _ _ hchildren]
  -- One of them has nodes below it and the other has none, so their shapes differ.
  | ⟨_, _, _, _, _, []⟩, ⟨_, _, _, _, _, _ :: _⟩, h => by simp [shape, shapeAll] at h
  | ⟨_, _, _, _, _, _ :: _⟩, ⟨_, _, _, _, _, []⟩, h => by simp [shape, shapeAll] at h

/-- Changes that make one shape of leaves of one shape do so with the last leaves of forests of one
shape. -/
theorem shapeAll_modifyLastLeaf
    (hf : ∀ node node' : Node, shape node = shape node' → shape (f node) = shape (f' node')) :
    ∀ nodes nodes' : List Node, shapeAll nodes = shapeAll nodes' →
      shapeAll (modifyLastLeaf f nodes) = shapeAll (modifyLastLeaf f' nodes')
  | [], [], _ => by rw [modifyLastLeaf, modifyLastLeaf]
  | [node], [node'], h => by
    rw [shapeAll_cons, shapeAll_cons, List.cons.injEq] at h
    rw [modifyLastLeaf, modifyLastLeaf, shapeAll_cons, shapeAll_cons,
      shape_modifyLeaf hf node node' h.1]
  | node :: next :: nodes, node' :: next' :: nodes', h => by
    rw [shapeAll_cons node, shapeAll_cons node', List.cons.injEq] at h
    rw [modifyLastLeaf, modifyLastLeaf, shapeAll_cons, shapeAll_cons, h.1,
      shapeAll_modifyLastLeaf hf _ _ h.2]
  -- Forests of one shape have equally many trees.
  | [], _ :: _, h => by simp at h
  | _ :: _, [], h => by simp at h
  | [_], _ :: _ :: _, h => by simp at h
  | _ :: _ :: _, [_], h => by simp at h

end

end LastLeaf

/-- Any two texts make one shape of the shape of a forest when they are added to its last leaf. -/
theorem shapeAll_appendText (text text' : String) {nodes nodes' : List Node}
    (h : shapeAll nodes = shapeAll nodes') :
    shapeAll (modifyLastLeaf (appendText text) nodes) =
      shapeAll (modifyLastLeaf (appendText text') nodes') := by
  refine shapeAll_modifyLastLeaf (fun node node' hnode => ?_) nodes nodes' h
  rw [shape_appendText, shape_appendText, hnode]

/-- So they do if a link gets its target along with them. -/
theorem shapeAll_wrapText (href href' : Bool) (text text' : String) {nodes nodes' : List Node}
    (h : shapeAll nodes = shapeAll nodes') :
    shapeAll (modifyLastLeaf (wrapText href text) nodes) =
      shapeAll (modifyLastLeaf (wrapText href' text') nodes') := by
  refine shapeAll_modifyLastLeaf (fun node node' hnode => ?_) nodes nodes' h
  rw [shape_wrapText, shape_wrapText, shape_appendText, shape_appendText, hnode]

end Node

/-! ## Options -/

/-- Supplied texts that ask for equally many clones: there is none, or it is a single text, or there
are equally many lines that are not blank. -/
inductive SuppliedText.Alike : Option SuppliedText → Option SuppliedText → Prop
  | absent : Alike none none
  | block (text text' : String) : Alike (some (.block text)) (some (.block text'))
  | lines {lines lines' : List String}
      (hcount : (filledLines lines).length = (filledLines lines').length) :
      Alike (some (.lines lines)) (some (.lines lines'))

theorem Options.countOf_eq {options options' : Options}
    (htext : SuppliedText.Alike options.text options'.text) (repeater : Option Repeater) :
    options.countOf repeater = options'.countOf repeater := by
  unfold countOf
  generalize options.text = text at htext
  generalize options'.text = text' at htext
  cases htext with
  | absent => rfl
  | block => rfl
  | lines hcount => simp only [hcount]

/-! ## Unrolled statements -/

/-- The shapes of the nodes that have been made, and how many clones have been made. -/
def Unrolled.shapes (unrolled : Unrolled) : List Shape × Nat :=
  (Node.shapeAll unrolled.1, unrolled.2)

namespace Statement

open Node (shape shapeAll)

/-- Marking the nodes of a group marks their shapes. -/
theorem shapeAll_markClone (clone : Option Repeater) {nodes nodes' : List Node}
    (h : shapeAll nodes = shapeAll nodes') :
    shapeAll (markClone clone nodes) = shapeAll (markClone clone nodes') := by
  have hmark (nodes : List Node) : shapeAll (markClone clone nodes) =
      (shapeAll nodes).map fun shape => { shape with repeater := shape.repeater.or clone } := by
    rw [markClone, Node.shapeAll_eq_map, Node.shapeAll_eq_map, List.map_map, List.map_map]
    congr 1
    funext node
    simp only [Function.comp_apply, Node.shape_eq]
  rw [hmark, hmark, h]

/-- Clones of one shape are counted alike, so that equally many of them are made. -/
theorem shapes_clones {limit : Nat} {body body' : Nat → Nat → Unrolled}
    (hbody : ∀ index made,
      Unrolled.shapes (body index made) = Unrolled.shapes (body' index made))
    (remaining index made : Nat) :
    Unrolled.shapes (clones limit body index made remaining) =
      Unrolled.shapes (clones limit body' index made remaining) := by
  induction remaining generalizing index made with
  | zero => rw [clones, clones]
  | succ remaining ih =>
    obtain ⟨hnodes, hmade⟩ := Prod.mk.inj (hbody index made)
    rw [clones, clones]
    dsimp only
    rw [hmade]
    split
    next => rw [Unrolled.shapes, Unrolled.shapes, hnodes]
    next =>
      obtain ⟨hmore, hlast⟩ := Prod.mk.inj (ih (index + 1) ((body' index made).2 + 1))
      simp only [Unrolled.shapes, Node.shapeAll_append, hnodes, hmore, hlast]

variable {options options' : Options}

/-- A statement is unrolled to one shape if each repetition of it is. -/
theorem shapes_repeated (hrepeat : options.maxRepeat = options'.maxRepeat)
    (htext : SuppliedText.Alike options.text options'.text)
    {body body' : Scope → Option Repeater → Nat → Unrolled}
    (hbody : ∀ inner clone made, Unrolled.shapes (body ⟨options, inner⟩ clone made) =
      Unrolled.shapes (body' ⟨options', inner⟩ clone made))
    (repeater : Option Repeater) (loops : List Repeater) (claimed : Bool) (made : Nat) :
    Unrolled.shapes (repeated ⟨options, loops⟩ repeater claimed body made) =
      Unrolled.shapes (repeated ⟨options', loops⟩ repeater claimed body' made) := by
  cases repeater with
  | none => exact hbody loops none made
  | some written =>
    have hlimit : options.repeatLimit = options'.repeatLimit := by
      rw [Options.repeatLimit, Options.repeatLimit, hrepeat]
    rw [repeated_some, repeated_some, Options.countOf_eq htext, hlimit]
    refine shapes_clones (fun index made => ?_) _ 0 made
    have hclone : options.cloneAt written index = options'.cloneAt written index := by
      rw [Options.cloneAt, Options.cloneAt, Options.countOf_eq htext]
    unfold makeClone
    dsimp only
    rw [hclone]
    obtain ⟨hnodes, hmade⟩ := Prod.mk.inj (hbody (options'.cloneAt written index :: loops)
      (some (options'.cloneAt written index)) made)
    split
    next =>
      exact Prod.ext (Node.shapeAll_appendText (options.textAt (some index))
        (options'.textAt (some index)) hnodes) hmade
    next => exact Prod.ext hnodes hmade

mutual

/-- Unrolling a statement for two texts keeps in step. -/
theorem shapes_unroll (hrepeat : options.maxRepeat = options'.maxRepeat)
    (htext : SuppliedText.Alike options.text options'.text) :
    ∀ (statement : Statement) (loops : List Repeater) (made : Nat),
      Unrolled.shapes (unroll ⟨options, loops⟩ made statement) =
        Unrolled.shapes (unroll ⟨options', loops⟩ made statement)
  | .element head children, loops, made => by
    rw [unroll, unroll]
    refine shapes_repeated hrepeat htext (fun inner clone made => ?_) _ loops _ made
    obtain ⟨hbelow, hmade⟩ := Prod.mk.inj (shapes_unrollAll hrepeat htext children inner made)
    exact Prod.ext (Node.shapeAll_nodes _ _ head clone hbelow) hmade
  | .group repeater children, loops, made => by
    rw [unroll, unroll]
    refine shapes_repeated hrepeat htext (fun inner clone made => ?_) _ loops _ made
    obtain ⟨hnodes, hmade⟩ := Prod.mk.inj (shapes_unrollAll hrepeat htext children inner made)
    exact Prod.ext (shapeAll_markClone clone hnodes) hmade

/-- Unrolling statements for two texts keeps in step. -/
theorem shapes_unrollAll (hrepeat : options.maxRepeat = options'.maxRepeat)
    (htext : SuppliedText.Alike options.text options'.text) :
    ∀ (statements : List Statement) (loops : List Repeater) (made : Nat),
      Unrolled.shapes (unrollAll ⟨options, loops⟩ made statements) =
        Unrolled.shapes (unrollAll ⟨options', loops⟩ made statements)
  | [], loops, made => by rw [unrollAll, unrollAll]
  | statement :: statements, loops, made => by
    rw [unrollAll, unrollAll]
    obtain ⟨hnodes, hmade⟩ := Prod.mk.inj (shapes_unroll hrepeat htext statement loops made)
    dsimp only
    rw [hmade]
    obtain ⟨hmore, hlast⟩ := Prod.mk.inj (shapes_unrollAll hrepeat htext statements loops
      (unroll ⟨options', loops⟩ made statement).2)
    simp only [Unrolled.shapes, Node.shapeAll_append, hnodes, hmore, hlast]

end

/-- The shape of the output does not depend on what the supplied text and the variables say. Given
the limit on clones, it is the same for any values of variables and for any texts that ask for
equally many clones: the same nodes stand in the same places, with the same marks, with a name or
value where they have one, and with the same fields in their values. -/
theorem shapeAll_convert (hrepeat : options.maxRepeat = options'.maxRepeat)
    (htext : SuppliedText.Alike options.text options'.text) (statements : List Statement) :
    shapeAll (convert options statements) = shapeAll (convert options' statements) := by
  obtain ⟨hnodes, -⟩ := Prod.mk.inj (shapes_unrollAll hrepeat htext statements [] 0)
  rw [convert_eq_insertWhole, convert_eq_insertWhole, Options.insertWhole, Options.insertWhole]
  generalize options.text = text at htext
  generalize options'.text = text' at htext
  cases htext with
  | absent => exact hnodes
  | block text text' =>
    dsimp only
    split
    next => exact hnodes
    next => exact Node.shapeAll_wrapText _ _ _ _ hnodes
  | lines =>
    dsimp only
    split
    next => exact hnodes
    next => exact Node.shapeAll_wrapText _ _ _ _ hnodes

/-- Lines and values that look like abbreviations, beside others that do not: there are two items
with the same fields either way. -/
theorem shapeAll_convert_lines :
    SuppliedText.Alike (some (.lines ["x", " ", "y"])) (some (.lines ["a>b*3", "${1}"])) ∧
    shapeAll (convert
        { text := some (.lines ["x", " ", "y"]), vars := Variables.insert ∅ "v" "" }
        [.element { value := some [⟨.field (.reference "v"), 1, 5⟩, ⟨.field (.tabStop 1 ""), 5, 9⟩]
                    repeater := some ⟨1, 0, true⟩ } []]) =
      shapeAll (convert
        { text := some (.lines ["a>b*3", "${1}"]), vars := Variables.insert ∅ "v" "(p+q)*9" }
        [.element { value := some [⟨.field (.reference "v"), 1, 5⟩, ⟨.field (.tabStop 1 ""), 5, 9⟩]
                    repeater := some ⟨1, 0, true⟩ } []]) := by
  have hcount : (SuppliedText.filledLines ["x", " ", "y"]).length =
      (SuppliedText.filledLines ["a>b*3", "${1}"]).length := by
    decide +kernel
  refine ⟨.lines hcount, ?_⟩
  apply shapeAll_convert
  · rfl
  · exact .lines hcount

end Statement

end Shorthand
