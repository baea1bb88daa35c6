import Mathlib.Data.List.Forall2
import Mathlib.Data.List.ModifyLast
import Shorthand.Proofs.Expansion.Unrolled

/-!
# Nodes in reading order

The listing of a forest has one entry for each of its nodes, in preorder, each without the nodes
below it. Hoisting the nodes below a plain text, marking the nodes of a group and adding text to the
last leaf change entries of the listing, but not how many there are, nor their order.

## Main definitions

* `Node.listing`, `Node.listingAll`: the nodes of a tree and of a forest in reading order;
* `Scope.single`: the node of an element by itself.

## Main results

* `Node.listingAll_nodes`: an element is listed before what is below it, wherever that is hoisted
  to;
* `Node.getLast?_listingAll_concat`: the last leaf is the last entry of the listing;
* `Node.listingAll_modifyLastLeaf`: changing the last leaf changes that entry;
* `Node.forall₂_listingAll_map`: a change of the roots changes their entries alone.
-/

namespace Shorthand

namespace Node

mutual

/-- The node and those below it in reading order, each without the nodes below it. -/
def listing : Node → List Node
  | ⟨name, value, attributes, repeater, selfClosing, children⟩ =>
    ⟨name, value, attributes, repeater, selfClosing, []⟩ :: listingAll children

/-- The nodes of a forest in reading order. -/
def listingAll : List Node → List Node
  | [] => []
  | node :: nodes => listing node ++ listingAll nodes

end

theorem listing_eq (node : Node) :
    listing node = { node with children := [] } :: listingAll node.children := by
  obtain ⟨name, value, attributes, repeater, selfClosing, children⟩ := node
  rw [listing]

theorem listing_ne_nil (node : Node) : listing node ≠ [] := by
  rw [listing_eq]
  exact List.cons_ne_nil _ _

@[simp]
theorem listingAll_nil : listingAll [] = [] := by rw [listingAll]

@[simp]
theorem listingAll_cons (node : Node) (nodes : List Node) :
    listingAll (node :: nodes) = listing node ++ listingAll nodes := by
  rw [listingAll]

theorem listingAll_singleton (node : Node) : listingAll [node] = listing node := by
  rw [listingAll_cons, listingAll_nil, List.append_nil]

/-- A leaf is its own listing. -/
theorem listing_of_leaf {node : Node} (h : node.children = []) : listing node = [node] := by
  obtain ⟨name, value, attributes, repeater, selfClosing, children⟩ := node
  obtain rfl : children = [] := h
  rw [listing, listingAll_nil]

theorem listingAll_ne_nil (node : Node) (nodes : List Node) : listingAll (node :: nodes) ≠ [] := by
  rw [listingAll_cons]
  exact List.append_ne_nil_of_left_ne_nil (listing_ne_nil node) _

@[simp]
theorem listingAll_append (nodes more : List Node) :
    listingAll (nodes ++ more) = listingAll nodes ++ listingAll more := by
  induction nodes with
  | nil => rw [listingAll_nil, List.nil_append, List.nil_append]
  | cons node nodes ih =>
    rw [List.cons_append, listingAll_cons, listingAll_cons, ih, List.append_assoc]

end Node

/-! ## Elements -/

/-- The node of one clone of an element, by itself. -/
def Scope.single (scope : Scope) (head : Statement.Element) (clone : Option Repeater) : Node :=
  { name := head.name.map scope.renderName
    value := head.value.map scope.renderValue
    attributes := head.attributes.map scope.renderAttribute
    repeater := clone
    selfClosing := head.selfClosing
    children := [] }

theorem Scope.nodes_eq (scope : Scope) (head : Statement.Element) (clone : Option Repeater)
    (below : List Node) :
    scope.nodes head clone below =
      if (scope.single head clone).isPlainText || head.selfClosing then
        scope.single head clone :: below
      else [{ scope.single head clone with children := below }] :=
  rfl

namespace Node

/-- An element is listed before what is below it, whether that stays there or becomes its
siblings. -/
theorem listingAll_nodes (scope : Scope) (head : Statement.Element) (clone : Option Repeater)
    (below : List Node) :
    listingAll (scope.nodes head clone below) = scope.single head clone :: listingAll below := by
  rw [Scope.nodes_eq]
  split
  next => rw [listingAll_cons, listing_of_leaf rfl, List.singleton_append]
  next =>
    rw [listingAll_singleton, listing_eq]
    rfl

/-! ## The last leaf -/

/-- The last entry of a listing is the leaf that is reached by last children from the last node. -/
theorem getLast?_listingAll_concat (nodes : List Node) (node : Node) :
    (listingAll (nodes ++ [node])).getLast? =
      if node.children = [] then some node else (listingAll node.children).getLast? := by
  rw [listingAll_append, listingAll_singleton,
    List.getLast?_append_of_ne_nil _ (listing_ne_nil node)]
  split
  next hleaf => rw [listing_of_leaf hleaf, List.getLast?_singleton]
  next hchildren =>
    obtain ⟨child, children, hchildren⟩ := List.exists_cons_of_ne_nil hchildren
    rw [listing_eq, hchildren]
    exact List.getLast?_append_of_ne_nil [_] (listingAll_ne_nil child children)

section LastLeaf

variable {f : Node → Node}

mutual

/-- Changing the last leaf of a tree changes the last entry of its listing. -/
theorem listing_modifyLeaf
    (hleaf : ∀ node : Node, node.children = [] → (f node).children = []) : ∀ node : Node,
    listing (modifyLeaf f node) = (listing node).modifyLast f
  | ⟨name, value, attributes, repeater, selfClosing, []⟩ => by
    rw [modifyLeaf, listing_of_leaf (hleaf _ rfl), listing_of_leaf rfl]
    exact (List.modifyLast_concat f _ []).symm
  | ⟨name, value, attributes, repeater, selfClosing, child :: children⟩ => by
    have hne := listingAll_ne_nil child children
    rw [modifyLeaf, listing, listing, listingAll_modifyLastLeaf hleaf (child :: children)]
    exact (List.modifyLast_append_of_right_ne_nil f [_] _ hne).symm

/-- The last leaf of a forest is the last entry of its listing. -/
theorem listingAll_modifyLastLeaf
    (hleaf : ∀ node : Node, node.children = [] → (f node).children = []) : ∀ nodes : List Node,
    listingAll (modifyLastLeaf f nodes) = (listingAll nodes).modifyLast f
  | [] => by
    rw [modifyLastLeaf, listingAll]
    rfl
  | [node] => by
    rw [modifyLastLeaf, listingAll_singleton, listingAll_singleton, listing_modifyLeaf hleaf node]
  | node :: next :: nodes => by
    rw [modifyLastLeaf, listingAll_cons, listingAll_modifyLastLeaf hleaf (next :: nodes),
      listingAll_cons node, List.modifyLast_append_of_right_ne_nil f _ _ (listingAll_ne_nil _ _)]

end

/-- Related lists stay related if their last entries are changed in a way that keeps these
related. -/
theorem forall₂_modifyLast {α β : Type} {R : α → β → Prop} {g : α → α} {f : β → β}
    (hkeep : ∀ entry node, R entry node → R (g entry) (f node)) {entries : List α}
    {nodes : List β} (h : List.Forall₂ R entries nodes) :
    List.Forall₂ R (entries.modifyLast g) (nodes.modifyLast f) := by
  induction h with
  | nil => exact .nil
  | @cons entry node entries nodes hentry hmore ih =>
    cases hmore with
    | nil => exact .cons (hkeep entry node hentry) .nil
    | @cons after next rest later =>
      have hrest : List.modifyLast g (entry :: after :: rest) =
          entry :: List.modifyLast g (after :: rest) :=
        List.modifyLast_append_of_right_ne_nil g [entry] _ (List.cons_ne_nil after rest)
      have hlater : List.modifyLast f (node :: next :: later) =
          node :: List.modifyLast f (next :: later) :=
        List.modifyLast_append_of_right_ne_nil f [node] _ (List.cons_ne_nil next later)
      rw [hrest, hlater]
      exact .cons hentry ih

/-- What holds of the entries of a listing still holds if the last leaf is changed in a way that
keeps it. -/
theorem forall₂_listingAll_modifyLastLeaf {α : Type} {R : α → Node → Prop} {entries : List α}
    {nodes : List Node} (hleaf : ∀ node : Node, node.children = [] → (f node).children = [])
    (hkeep : ∀ entry node, R entry node → R entry (f node))
    (h : List.Forall₂ R entries (listingAll nodes)) :
    List.Forall₂ R entries (listingAll (modifyLastLeaf f nodes)) := by
  have hsame : entries.modifyLast id = entries := by
    rcases List.eq_nil_or_concat' entries with rfl | ⟨init, last, rfl⟩
    · rfl
    · exact List.modifyLast_concat id last init
  rw [listingAll_modifyLastLeaf hleaf, ← hsame]
  exact forall₂_modifyLast hkeep h

end LastLeaf

/-! ## Roots -/

/-- What holds of the entries of a listing still holds if the roots are changed in a way that keeps
it and leaves what is below them. -/
theorem forall₂_listingAll_map {α : Type} {R : α → Node → Prop} {entries : List α}
    {nodes : List Node} {f : Node → Node}
    (hbelow : ∀ node : Node, { f node with children := [] } = f { node with children := [] })
    (hchildren : ∀ node : Node, (f node).children = node.children)
    (hkeep : ∀ entry ∈ entries, ∀ node, R entry node → R entry (f node))
    (h : List.Forall₂ R entries (listingAll nodes)) :
    List.Forall₂ R entries (listingAll (nodes.map f)) := by
  induction nodes generalizing entries with
  | nil => exact h
  | cons node nodes ih =>
    rw [listingAll_cons, listing_eq, List.cons_append, List.forall₂_cons_right_iff] at h
    obtain ⟨entry, rest, hroot, hrest, rfl⟩ := h
    obtain ⟨hentry, hrest'⟩ := List.forall_mem_cons.1 hkeep
    -- Behind the root come what is below it, which stays, and the other roots.
    have hsplit := List.forall₂_drop_append rest _ _ hrest
    rw [List.map_cons, listingAll_cons, listing_eq, hbelow, hchildren]
    refine .cons (hentry _ hroot) ?_
    rw [← List.take_append_drop (listingAll node.children).length rest]
    refine List.rel_append (List.forall₂_take_append rest _ _ hrest) (ih ?_ hsplit)
    exact fun entry hmem => hrest' entry (List.mem_of_mem_drop hmem)

end Node

end Shorthand
