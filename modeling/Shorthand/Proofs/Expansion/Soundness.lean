import Shorthand.Proofs.Expansion.Copies
import Shorthand.Proofs.Expansion.Values

/-!
# Sound output

Whatever the tree and the options are, the nodes of the output fit together. A node that closes
itself, or that carries nothing but a text, has no nodes below it. Values are merged, names of
attributes are not empty, and a mark says which of how many clones a node is.

Nodes are edited after they have been made: groups mark them, clones get their lines, and the last
leaf gets the whole text and perhaps a link target. All of these keep a node sound. Only a leaf gets
text, so text that is appended never turns a node with others below it into a plain text.

## Main definitions

* `Node.Sound`: what holds of a node by itself;
* `Node.Throughout`: what holds of a node and of all nodes below it, at any depth.

## Main results

* `Node.throughout_nodes`: the nodes of an element are sound if those below it are;
* `Node.throughout_modifyLastLeaf`: changing the last leaf keeps the nodes around it as they are;
* `Statement.throughout_sound_unroll`: a statement is unrolled to sound nodes;
* `Statement.throughout_sound_convert`: all nodes of the output are sound.
-/

namespace Shorthand

namespace Node

/-! ## Sound nodes -/

/-- An attribute of the output: its name is not empty, and its value is merged. -/
structure Attribute.Sound (attr : Attribute) : Prop where
  name : attr.name ≠ some ""
  value : ∀ value ∈ attr.value, Value.Merged value

/-- A node of the output. -/
structure Sound (node : Node) : Prop where
  /-- A node that closes itself has no nodes below it. -/
  closed : node.selfClosing = true → node.children = []
  /-- Neither has a node without name and attributes whose value holds no field. -/
  plain : node.isPlainText = true → node.children = []
  value : ∀ value ∈ node.value, Value.Merged value
  attributes : ∀ attr ∈ node.attributes, attr.Sound
  /-- A mark tells a clone among those that its repeater makes. -/
  mark : ∀ clone ∈ node.repeater, clone.index < clone.count

/-- The property holds of the node and of all nodes below it, at any depth. -/
inductive Throughout (p : Node → Prop) : Node → Prop
  | intro {node : Node} (here : p node) (below : ∀ child ∈ node.children, Throughout p child) :
      Throughout p node

/-- The node itself has the property, and so do those below it. -/
theorem Throughout.elim {p : Node → Prop} {node : Node} (h : node.Throughout p) :
    p node ∧ ∀ child ∈ node.children, child.Throughout p := by
  cases h with
  | intro here below => exact ⟨here, below⟩

theorem throughout_of_leaf {p : Node → Prop} {node : Node} (hleaf : node.children = [])
    (here : p node) : node.Throughout p :=
  .intro here (by simp [hleaf])

/-- A node with others below it stays sound, whatever else they are replaced with: it neither closes
itself nor is it a plain text. -/
theorem Sound.replaceChildren {node : Node} (h : node.Sound) (hinner : node.children ≠ [])
    (children : List Node) : Sound { node with children } :=
  ⟨fun hclosed => (hinner (h.closed hclosed)).elim, fun hplain => (hinner (h.plain hplain)).elim,
    h.value, h.attributes, h.mark⟩

/-! ## New nodes -/

/-- An attribute is rendered to one without an empty name and with a merged value. -/
theorem sound_renderAttribute (scope : Scope) (attr : Statement.Attribute) :
    (scope.renderAttribute attr).Sound := by
  refine ⟨?_, fun value hvalue => ?_⟩
  · rw [Scope.renderAttribute]
    dsimp only
    split
    next => simp
    next hname =>
      intro hempty
      refine hname (List.isEmpty_iff.2 ?_)
      simpa using hempty
  · obtain ⟨unwrapped, -, rfl⟩ := Option.map_eq_some_iff.1 hvalue
    exact scope.merged_renderValue unwrapped.2

/-- The node of an element by itself is sound. -/
theorem sound_single (scope : Scope) (head : Statement.Element) {clone : Option Repeater}
    (hclone : ∀ mark ∈ clone, mark.index < mark.count) : (scope.single head clone).Sound := by
  refine ⟨fun _ => rfl, fun _ => rfl, fun value hvalue => ?_, fun attr hattr => ?_, hclone⟩
  · obtain ⟨tokens, -, rfl⟩ := Option.map_eq_some_iff.1 hvalue
    exact scope.merged_renderValue tokens
  · obtain ⟨written, -, rfl⟩ := List.mem_map.1 hattr
    exact sound_renderAttribute scope written

/-- The nodes of an element are sound if those below it are: a node that must not have others below
it is given none. -/
theorem throughout_nodes (scope : Scope) (head : Statement.Element) {clone : Option Repeater}
    {below : List Node} (hclone : ∀ mark ∈ clone, mark.index < mark.count)
    (hbelow : ∀ node ∈ below, node.Throughout Sound) :
    ∀ node ∈ scope.nodes head clone below, node.Throughout Sound := by
  have hsingle := sound_single scope head hclone
  rw [Scope.nodes_eq]
  split
  next => exact List.forall_mem_cons.2 ⟨throughout_of_leaf rfl hsingle, hbelow⟩
  next hopen =>
    rw [Bool.or_eq_true, not_or] at hopen
    refine List.forall_mem_singleton.2 (.intro ?_ hbelow)
    exact ⟨fun hclosed => (hopen.2 hclosed).elim, fun hplain => (hopen.1 hplain).elim,
      hsingle.value, hsingle.attributes, hsingle.mark⟩

/-! ## Late changes -/

section LastLeaf

variable {p : Node → Prop} {f : Node → Node}

mutual

/-- Changing the last leaf of a tree keeps what holds throughout, if it holds of the leaf that comes
out, and if it does not depend on which nodes are below a node that has some. -/
theorem throughout_modifyLeaf
    (hinner : ∀ node children, p node → node.children ≠ [] → p { node with children })
    (hleaf : ∀ node, node.children = [] → p node → (f node).children = [] ∧ p (f node)) :
    ∀ node : Node, node.Throughout p → (modifyLeaf f node).Throughout p
  | ⟨name, value, attributes, repeater, selfClosing, []⟩, h => by
    obtain ⟨hstill, hp⟩ := hleaf _ rfl h.elim.1
    rw [modifyLeaf]
    exact throughout_of_leaf hstill hp
  | ⟨name, value, attributes, repeater, selfClosing, child :: children⟩, h => by
    obtain ⟨here, below⟩ := h.elim
    rw [modifyLeaf]
    refine .intro (hinner _ _ here (List.cons_ne_nil child children)) ?_
    exact throughout_modifyLastLeaf hinner hleaf (child :: children) below

/-- Changing the last leaf of a forest keeps what holds throughout. -/
theorem throughout_modifyLastLeaf
    (hinner : ∀ node children, p node → node.children ≠ [] → p { node with children })
    (hleaf : ∀ node, node.children = [] → p node → (f node).children = [] ∧ p (f node)) :
    ∀ nodes : List Node, (∀ node ∈ nodes, node.Throughout p) →
      ∀ node ∈ modifyLastLeaf f nodes, node.Throughout p
  | [], h => by
    rw [modifyLastLeaf]
    exact h
  | [node], h => by
    rw [modifyLastLeaf]
    refine List.forall_mem_singleton.2 ?_
    exact throughout_modifyLeaf hinner hleaf node (List.forall_mem_singleton.1 h)
  | node :: next :: nodes, h => by
    obtain ⟨hnode, hmore⟩ := List.forall_mem_cons.1 h
    rw [modifyLastLeaf]
    refine List.forall_mem_cons.2 ⟨hnode, ?_⟩
    exact throughout_modifyLastLeaf hinner hleaf (next :: nodes) hmore

end

end LastLeaf

/-- A leaf with text at the end of its value is sound. -/
theorem Sound.appendText {node : Node} (h : node.Sound) (hleaf : node.children = [])
    (text : String) : (node.appendText text).Sound := by
  refine ⟨fun _ => hleaf, fun _ => hleaf, fun value hvalue => ?_, h.attributes, h.mark⟩
  obtain rfl : Value.push (node.value.getD []) (.text text) = value := Option.some.inj hvalue
  refine Value.Merged.push ?_ (Value.indexed_text text)
  cases hold : node.value with
  | none => exact Value.merged_nil
  | some old => exact h.value old hold

/-- Attributes stay sound when one of them gets a link target, or when one with a target is
added. -/
theorem sound_fillHref {target : List Value} (htarget : Value.Merged target)
    {attributes : List Attribute} (h : ∀ attr ∈ attributes, attr.Sound) :
    ∀ attr ∈ fillHref target attributes, attr.Sound := by
  induction attributes with
  | nil =>
    refine List.forall_mem_singleton.2 ⟨by simp, fun value hvalue => ?_⟩
    exact Option.some.inj hvalue ▸ htarget
  | cons attr attributes ih =>
    obtain ⟨hattr, hmore⟩ := List.forall_mem_cons.1 h
    rw [fillHref]
    split
    next =>
      refine List.forall_mem_cons.2 ⟨⟨hattr.name, fun value hvalue => ?_⟩, hmore⟩
      obtain rfl : attr.value.getD target = value := Option.some.inj hvalue
      cases hold : attr.value with
      | none => exact htarget
      | some old => exact hattr.value old hold
    next => exact List.forall_mem_cons.2 ⟨hattr, ih hmore⟩

/-- A leaf with a link target is sound. -/
theorem Sound.insertHref {node : Node} (h : node.Sound) (hleaf : node.children = [])
    (text : String) : (node.insertHref text).Sound := by
  have htarget : Value.Merged (Value.push [] (.text (Link.hrefFor text))) :=
    Value.merged_nil.push (Value.indexed_text _)
  exact ⟨fun _ => hleaf, fun _ => hleaf, h.value, sound_fillHref htarget h.attributes, h.mark⟩

/-- A leaf that wraps the whole text is still a leaf, and sound. -/
theorem sound_wrapText (href : Bool) (text : String) (node : Node) (hleaf : node.children = [])
    (h : node.Sound) :
    (node.wrapText href text).children = [] ∧ (node.wrapText href text).Sound := by
  have happended := h.appendText hleaf text
  unfold wrapText
  dsimp only
  split
  next => exact ⟨hleaf, happended.insertHref hleaf text⟩
  next => exact ⟨hleaf, happended⟩

end Node

/-! ## Unrolled statements -/

namespace Statement

open Node (Throughout Sound)

variable {options : Options}

/-- Marking the nodes of a group as a clone of it keeps them sound. -/
theorem throughout_markClone {clone : Option Repeater} {nodes : List Node}
    (hclone : ∀ mark ∈ clone, mark.index < mark.count)
    (h : ∀ node ∈ nodes, node.Throughout Sound) :
    ∀ node ∈ markClone clone nodes, node.Throughout Sound := by
  intro marked hmarked
  obtain ⟨node, hmem, rfl⟩ := List.mem_map.1 hmarked
  obtain ⟨here, below⟩ := (h node hmem).elim
  refine .intro ⟨here.closed, here.plain, here.value, here.attributes, fun mark hmark => ?_⟩ below
  rcases Option.or_eq_some_iff.1 hmark with hown | ⟨-, hgroup⟩
  · exact here.mark mark hown
  · exact hclone mark hgroup

/-- What holds of the nodes of each clone holds of those of all clones. -/
theorem forall_mem_clones {p : Node → Prop} {limit count : Nat} {body : Nat → Nat → Unrolled}
    (hbody : ∀ index < count, ∀ made, ∀ node ∈ (body index made).1, p node)
    (remaining index made : Nat) (hcount : index + remaining ≤ count) :
    ∀ node ∈ (clones limit body index made remaining).1, p node := by
  induction remaining generalizing index made with
  | zero => exact fun node hmem => (List.not_mem_nil hmem).elim
  | succ remaining ih =>
    have hfirst := hbody index (by omega) made
    rw [clones]
    generalize body index made = first at hfirst
    obtain ⟨nodes, after⟩ := first
    dsimp only
    split
    next => exact hfirst
    next => exact List.forall_mem_append.2 ⟨hfirst, ih (index + 1) (after + 1) (by omega)⟩

/-- A statement is unrolled to sound nodes if each repetition of it is. -/
theorem throughout_repeated {repeater : Option Repeater}
    {body : Scope → Option Repeater → Nat → Unrolled}
    (hbody : ∀ inner (clone : Option Repeater) (made : Nat),
      (∀ mark ∈ clone, mark.index < mark.count) →
        ∀ node ∈ (body ⟨options, inner⟩ clone made).1, node.Throughout Sound)
    (loops : List Repeater) (claimed : Bool) (made : Nat) :
    ∀ node ∈ (repeated ⟨options, loops⟩ repeater claimed body made).1,
      node.Throughout Sound := by
  cases repeater with
  | none => exact hbody loops none made (by simp)
  | some written =>
    rw [repeated_some]
    refine forall_mem_clones (fun index hindex made => ?_) _ 0 made (Nat.zero_add _).le
    have hclone := hbody (options.cloneAt written index :: loops)
      (some (options.cloneAt written index)) made (fun mark hmark => by
        obtain rfl : options.cloneAt written index = mark := Option.some.inj hmark
        exact hindex)
    unfold makeClone
    split
    -- The line goes to the last leaf of the clone.
    next =>
      refine Node.throughout_modifyLastLeaf (fun node children h hinner => ?_)
        (fun node hleaf h => ?_) _ hclone
      · exact h.replaceChildren hinner children
      · exact ⟨hleaf, h.appendText hleaf _⟩
    next => exact hclone

mutual

/-- A statement is unrolled to sound nodes. -/
theorem throughout_sound_unroll (options : Options) : ∀ (statement : Statement)
    (loops : List Repeater) (made : Nat),
      ∀ node ∈ (unroll ⟨options, loops⟩ made statement).1, node.Throughout Sound
  | .element head children, loops, made => by
    rw [unroll]
    refine throughout_repeated (fun inner clone made hclone => ?_) loops _ made
    exact Node.throughout_nodes _ head hclone
      (throughout_sound_unrollAll options children inner made)
  | .group repeater children, loops, made => by
    rw [unroll]
    refine throughout_repeated (fun inner clone made hclone => ?_) loops _ made
    exact throughout_markClone hclone (throughout_sound_unrollAll options children inner made)

/-- Statements are unrolled to sound nodes. -/
theorem throughout_sound_unrollAll (options : Options) : ∀ (statements : List Statement)
    (loops : List Repeater) (made : Nat),
      ∀ node ∈ (unrollAll ⟨options, loops⟩ made statements).1, node.Throughout Sound
  | [], loops, made => by
    rw [unrollAll]
    exact fun node hmem => (List.not_mem_nil hmem).elim
  | statement :: statements, loops, made => by
    rw [unrollAll]
    exact List.forall_mem_append.2 ⟨throughout_sound_unroll options statement loops made,
      throughout_sound_unrollAll options statements loops _⟩

end

/-- The output is sound at every depth. Nodes that close themselves and plain texts have no nodes
below them. No value has an empty text, two texts next to each other or a field without an index. No
name of an attribute is empty, and each mark has an index below its count. -/
theorem throughout_sound_convert (options : Options) (statements : List Statement) :
    ∀ node ∈ convert options statements, node.Throughout Sound := by
  have h := throughout_sound_unrollAll options statements [] 0
  rw [convert_eq_insertWhole, Options.insertWhole]
  split
  next => exact h
  next text htext =>
    split
    next => exact h
    next =>
      refine Node.throughout_modifyLastLeaf (fun node children h hinner => ?_) ?_ _ h
      · exact h.replaceChildren hinner children
      · exact Node.sound_wrapText options.href text.joined

/-- An element that closes itself, below a text: the text and what is below the element are its
siblings, and the last of them wraps the supplied text. -/
theorem throughout_sound_convert_siblings :
    convert { text := some (.block "hello") }
        [.element { value := some [⟨.literal "see", 1, 4⟩] }
          [.element { name := some [⟨.literal "br", 6, 8⟩], selfClosing := true }
            [.element { name := some [⟨.literal "b", 10, 11⟩] } []]]] =
      [⟨none, some [.text "see"], [], none, false, []⟩, ⟨some "br", none, [], none, true, []⟩,
        ⟨some "b", some [.text "hello"], [], none, false, []⟩] ∧
    Throughout Sound ⟨some "b", some [.text "hello"], [], none, false, []⟩ := by
  have houtput : convert { text := some (.block "hello") }
        [.element { value := some [⟨.literal "see", 1, 4⟩] }
          [.element { name := some [⟨.literal "br", 6, 8⟩], selfClosing := true }
            [.element { name := some [⟨.literal "b", 10, 11⟩] } []]]] =
      [⟨none, some [.text "see"], [], none, false, []⟩, ⟨some "br", none, [], none, true, []⟩,
        ⟨some "b", some [.text "hello"], [], none, false, []⟩] := by
    rfl
  refine ⟨houtput, ?_⟩
  apply throughout_sound_convert
  rw [houtput]
  simp

end Statement

end Shorthand
